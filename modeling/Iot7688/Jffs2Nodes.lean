import Iot7688.Jffs2Append
import Iot7688.Lib.Laid

/-!
JFFS2 nodes as they are on the flash, and the whole run of mtd_replace_jffs2. The nodes in a
block can be told from its bytes alone. A node has 68 bytes in front of its data, takes up to
4096 bytes and is only begun with more than 128 left for them. So the log is well formed
exactly when the file is not empty, the last node leaves the next one a place, its block is
still to be had, and the version numbers do not start again.
-/
namespace Iot7688.Jffs2.Append

open Lib Mtd

/-- The places of more fields: in every node, in a dirent and in an inode. -/
def hdrCrcField : ℕ := 8
def direntNodeCrcField : ℕ := 32
def nameCrcField : ℕ := 36
def inodeInoField : ℕ := 12
def offsetField : ℕ := 44
def csizeField : ℕ := 48
def dsizeField : ℕ := 52
def dataCrcField : ℕ := 60
def inodeNodeCrcField : ℕ := 64
def dataField : ℕ := 68

structure HeaderOk (node : List Byte) : Prop where
  magic : field node magicField 2 = jffs2MagicBitmask
  totlen : field node totlenField 4 = node.length
  hdrCrc : field node hdrCrcField 4 = crc32 (node.take hdrCrcField)

structure DirentOk (node : List Byte) : Prop extends HeaderOk node where
  nodetype : field node nodetypeField 2 = jffs2NodetypeDirent
  nsize : nameField + field node nsizeField 1 = node.length
  nodeCrc : field node direntNodeCrcField 4 = crc32 (node.take direntNodeCrcField)
  nameCrc : field node nameCrcField 4 = crc32 (node.drop nameField)

structure InodeOk (node : List Byte) : Prop extends HeaderOk node where
  nodetype : field node nodetypeField 2 = jffs2NodetypeInode
  csize : dataField + field node csizeField 4 = node.length
  dsize : field node dsizeField 4 = field node csizeField 4
  nodeCrc : field node inodeNodeCrcField 4 = crc32 (node.take dataCrcField)
  dataCrc : field node dataCrcField 4 = crc32 (node.drop dataField)

def NodeOk (node : List Byte) : Prop := DirentOk node ∨ InodeOk node

theorem crc32_lt (bytes : List Byte) : crc32 bytes < 2 ^ 32 := (Crc.updates poly 0#32 bytes).isLt

theorem mod_crc32 (bytes : List Byte) : crc32 bytes % 2 ^ (8 * 4) = crc32 bytes :=
  Nat.mod_eq_of_lt (crc32_lt bytes)

@[simp] theorem length_unknownNode (nodetype totlen : ℕ) :
    (unknownNode nodetype totlen).length = 12 := by
  simp [unknownNode, nodeHeader]

@[simp] theorem length_direntFront (ino pino version type : ℕ) (name : List Byte) :
    (direntFront ino pino version type name).length = 32 := by
  simp [direntFront]

@[simp] theorem length_inodeFront (st : Stat) (ino version isize offset len : ℕ) :
    (inodeFront st ino version isize offset len).length = 60 := by
  simp [inodeFront]

/-- The fields that every node begins with. -/
theorem headerOk_unknownNode {nodetype totlen : ℕ} {rest : List Byte} (hlt : totlen < 2 ^ 32)
    (hlen : 12 + rest.length = totlen) : HeaderOk (unknownNode nodetype totlen ++ rest) := by
  have hhead : (nodeHeader nodetype totlen).length = hdrCrcField := by
    simp [nodeHeader, hdrCrcField]
  refine ⟨?_, ?_, ?_⟩
  · simp only [unknownNode, nodeHeader, List.append_assoc, magicField, field_leBytes_head]
    decide
  · simp (disch := decide) only [unknownNode, nodeHeader, List.append_assoc, totlenField,
      field_leBytes_skip, field_leBytes_head, Nat.sub_self, Nat.reduceSub]
    rw [Nat.mod_eq_of_lt hlt, ← hlen, ← List.append_assoc, ← List.append_assoc,
      ← List.append_assoc, List.length_append]
    simp
  · rw [unknownNode, List.append_assoc, List.take_append_of_le_length (Nat.le_of_eq hhead.symm),
      List.take_of_length_le (Nat.le_of_eq hhead)]
    simp (disch := decide) only [nodeHeader, List.append_assoc, hdrCrcField,
      field_leBytes_skip, field_leBytes_head, Nat.sub_self, Nat.reduceSub, mod_crc32]

theorem nodetype_unknownNode (nodetype totlen : ℕ) (rest : List Byte) :
    field (unknownNode nodetype totlen ++ rest) nodetypeField 2 = nodetype % 2 ^ 16 := by
  simp (disch := decide) only [unknownNode, nodeHeader, List.append_assoc, nodetypeField,
    field_leBytes_skip, field_leBytes_head, Nat.sub_self, Nat.reduceMul]

section

variable {st : Stat} {ino pino version type isize offset : ℕ} {name data : List Byte}

theorem direntOk_rawDirent (hname : name.length < 2 ^ 8) :
    DirentOk (rawDirent ino pino version type name) := by
  have hfront : (direntFront ino pino version type name).length = direntNodeCrcField :=
    length_direntFront ino pino version type name
  refine ⟨?_, ?_, ?_, ?_, ?_⟩
  · simp only [rawDirent, direntFront, List.append_assoc]
    refine headerOk_unknownNode (by omega) ?_
    simp only [List.length_append, leBytes_length]
    omega
  · simp only [rawDirent, direntFront, List.append_assoc, nodetype_unknownNode]
    rfl
  · rw [length_rawDirent]
    simp (disch := decide) only [rawDirent, direntFront, unknownNode, nodeHeader,
      List.append_assoc, nsizeField, field_leBytes_skip, field_leBytes_head, Nat.reduceSub]
    rw [Nat.mod_eq_of_lt hname]
    rfl
  · rw [rawDirent, List.append_assoc, List.append_assoc, List.take_left' hfront, field_at hfront,
      mod_crc32]
  · have hcrc : (direntFront ino pino version type name ++
        leBytes 4 (crc32 (direntFront ino pino version type name))).length = nameCrcField := by
      rw [List.length_append, hfront, leBytes_length]
      rfl
    have hname : (direntFront ino pino version type name ++
        leBytes 4 (crc32 (direntFront ino pino version type name)) ++
        leBytes 4 (crc32 name)).length = nameField := by
      rw [List.length_append, hcrc, leBytes_length]
      rfl
    rw [rawDirent, List.drop_left' hname, List.append_assoc _ _ name, field_at hcrc, mod_crc32]

/-- The name and the inode number in the dirent. -/
theorem name_rawDirent : (rawDirent ino pino version type name).drop nameField = name := by
  apply List.drop_left'
  simp only [List.length_append, length_direntFront, leBytes_length]
  rfl

theorem ino_rawDirent : field (rawDirent ino pino version type name) inoField 4 = ino % 2 ^ 32 := by
  simp (disch := decide) only [rawDirent, direntFront, unknownNode, nodeHeader,
    List.append_assoc, inoField, field_leBytes_skip, field_leBytes_head, Nat.reduceSub,
    Nat.reduceMul]

theorem length_inode : (rawInode st ino version isize offset data ++ data).length =
    68 + data.length := by
  rw [List.length_append, length_rawInode]

theorem data_rawInode :
    (rawInode st ino version isize offset data ++ data).drop dataField = data :=
  List.drop_left' (length_rawInode st ino version isize offset data)

/-- The bytes of an inode, field by field. -/
theorem rawInode_eq : rawInode st ino version isize offset data ++ data =
    unknownNode jffs2NodetypeInode (68 + data.length) ++ (leBytes 4 ino ++ (leBytes 4 version ++
      (leBytes 4 st.mode ++ (leBytes 2 0 ++ (leBytes 2 0 ++ (leBytes 4 isize ++
      (leBytes 4 st.atime ++ (leBytes 4 st.mtime ++ (leBytes 4 st.ctime ++ (leBytes 4 offset ++
      (leBytes 4 data.length ++ (leBytes 4 data.length ++ (leBytes 1 0 ++ (leBytes 1 0 ++
      (leBytes 2 0 ++ (leBytes 4 (crc32 data) ++
      (leBytes 4 (crc32 (inodeFront st ino version isize offset data.length)) ++
      data))))))))))))))))) := by
  simp only [rawInode, List.append_assoc]
  rw [inodeFront]
  simp only [List.append_assoc]

theorem field_unknownNode {nodetype totlen off n : ℕ} (h : 12 ≤ off) (rest : List Byte) :
    field (unknownNode nodetype totlen ++ rest) off n = field rest (off - 12) n := by
  obtain ⟨k, rfl⟩ := Nat.exists_eq_add_of_le h
  have hright := field_append_right (unknownNode nodetype totlen) rest k n
  rw [length_unknownNode] at hright
  rw [hright, Nat.add_sub_cancel_left]

theorem ino_rawInode :
    field (rawInode st ino version isize offset data ++ data) inodeInoField 4 = ino % 2 ^ 32 := by
  rw [rawInode_eq]
  simp (disch := decide) only [inodeInoField, field_unknownNode, field_leBytes_head,
    Nat.reduceSub, Nat.reduceMul]

theorem version_rawInode : field (rawInode st ino version isize offset data ++ data) versionField 4 =
    version % 2 ^ 32 := by
  rw [rawInode_eq]
  simp (disch := decide) only [versionField, field_unknownNode, field_leBytes_skip,
    field_leBytes_head, Nat.reduceSub, Nat.reduceMul]

theorem offset_rawInode : field (rawInode st ino version isize offset data ++ data) offsetField 4 =
    offset % 2 ^ 32 := by
  rw [rawInode_eq]
  simp (disch := decide) only [offsetField, field_unknownNode, field_leBytes_skip,
    field_leBytes_head, Nat.reduceSub, Nat.reduceMul]

theorem csize_rawInode : field (rawInode st ino version isize offset data ++ data) csizeField 4 =
    data.length % 2 ^ 32 := by
  rw [rawInode_eq]
  simp (disch := decide) only [csizeField, field_unknownNode, field_leBytes_skip,
    field_leBytes_head, Nat.reduceSub, Nat.reduceMul]

theorem dsize_rawInode : field (rawInode st ino version isize offset data ++ data) dsizeField 4 =
    data.length % 2 ^ 32 := by
  rw [rawInode_eq]
  simp (disch := decide) only [dsizeField, field_unknownNode, field_leBytes_skip,
    field_leBytes_head, Nat.reduceSub, Nat.reduceMul]

theorem inodeOk_rawInode (hdata : data.length < 2 ^ 31) :
    InodeOk (rawInode st ino version isize offset data ++ data) := by
  have hlt : 68 + data.length < 2 ^ 32 := by omega
  have hmod : data.length % 2 ^ 32 = data.length := Nat.mod_eq_of_lt (by omega)
  have hfront : (inodeFront st ino version isize offset data.length).length = dataCrcField :=
    length_inodeFront st ino version isize offset data.length
  have hcrc : (inodeFront st ino version isize offset data.length ++
      leBytes 4 (crc32 data)).length = inodeNodeCrcField := by
    rw [List.length_append, hfront, leBytes_length]
    rfl
  refine ⟨?_, ?_, ?_, ?_, ?_, ?_⟩
  · rw [rawInode_eq]
    refine headerOk_unknownNode hlt ?_
    simp only [List.length_append, leBytes_length]
    clear hfront hcrc hmod
    omega
  · rw [rawInode_eq, nodetype_unknownNode]
    rfl
  · rw [csize_rawInode, length_inode, hmod, dataField]
  · rw [csize_rawInode, dsize_rawInode]
  · rw [rawInode, List.append_assoc _ _ data, field_at hcrc, mod_crc32, List.append_assoc,
      List.take_left' hfront]
  · rw [data_rawInode, rawInode, List.append_assoc, List.append_assoc, field_at hfront, mod_crc32]

end

theorem NodeOk.header {node : List Byte} (h : NodeOk node) : HeaderOk node ∧ 12 ≤ node.length := by
  rcases h with h | h
  · have hlen := h.nsize
    unfold nameField at hlen
    exact ⟨h.toHeaderOk, by omega⟩
  · have hlen := h.csize
    unfold dataField at hlen
    exact ⟨h.toHeaderOk, by omega⟩

/-- A node begins with the magic number and says how long it is. -/
theorem delimited_nodeOk : Delimited 0xff NodeOk := by
  constructor
  · intro node h
    obtain ⟨hhead, hlen⟩ := h.header
    cases node with
    | nil => cases hlen
    | cons a rest =>
      refine ⟨a, rest, rfl, fun hfill => ?_⟩
      have hmagic := hhead.magic
      rw [hfill] at hmagic
      cases rest with
      | nil => cases hmagic
      | cons b rest =>
        simp [field, Lib.segment, leValue, magicField, jffs2MagicBitmask] at hmagic
        omega
  · intro node node' bytes bytes' h h' heq
    obtain ⟨hhead, hlen⟩ := h.header
    obtain ⟨hhead', hlen'⟩ := h'.header
    have hsize : node.length = node'.length := by
      rw [← hhead.totlen, ← hhead'.totlen, ← field_append_left (by unfold totlenField; omega) bytes,
        heq, field_append_left (by unfold totlenField; omega)]
    exact (List.append_inj heq hsize).1

/-- An erase block of the file: the marker and then nodes. -/
structure FileBlock (erasesize : ℕ) (block : List Byte) (nodes : List (List Byte)) : Prop where
  length : block.length = erasesize
  marker : cleanmarker <+: block
  nodes : Laid 0xff 4 NodeOk 12 (block.drop 12) nodes

/-- Every inode goes on where the one before ends. -/
def Consecutive : ℕ → List (List Byte) → Prop
  | _, [] => True
  | offset, node :: nodes =>
      field node offsetField 4 = offset ∧ Consecutive (offset + (node.drop dataField).length) nodes

/-- The nodes of the new entry. -/
structure Entry (name file dirent : List Byte) (inodes : List (List Byte)) : Prop where
  direntOk : DirentOk dirent
  name : dirent.drop nameField = name
  nonempty : inodes ≠ []
  inode : ∀ node ∈ inodes, InodeOk node
  ino : ∀ node ∈ inodes, field node inodeInoField 4 = field dirent inoField 4
  offsets : Consecutive 0 inodes
  versions : (inodes.map (field · versionField 4)).Pairwise (· < ·)
  data : inodes.flatMap (·.drop dataField) = file

/-- The blocks that a run has written. -/
def writtenLog : Except Stop St → Option (List (ℕ × List Byte))
  | .ok s => some s.log
  | .error (.exit log) => some log
  | .error _ => none

/-- The blocks for the file, the nodes in each of them, and the blocks behind. -/
structure AppendedAs (p : Part) (erasesize start : ℕ) (name file : List Byte)
    (log : List (ℕ × List Byte)) (count : ℕ) (nodes : List (List (List Byte))) (dirent : List Byte)
    (inodes : List (List Byte)) : Prop where
  placed : ∀ b ∈ log.take count, ∃ k, b.1 = k * erasesize ∧ start ≤ k ∧ k < p.blocks ∧
    p.marked k = false
  increasing : (log.take count).Pairwise fun b b' => b.1 < b'.1
  blocks : List.Forall₂ (FileBlock erasesize) ((log.take count).map Prod.snd) nodes
  behind : ∀ b ∈ log.drop count, jffs2Eof <+: b.2
  nodes : nodes.flatten = dirent :: inodes
  entry : Entry name file dirent inodes

/-- A well-formed log of the whole file is appended: the first blocks written are for the
file, each one a good block, and only the end marker comes behind them. -/
def AppendsFile (p : Part) (erasesize start : ℕ) (name file : List Byte)
    (result : Except Stop St) : Prop :=
  ∃ log count nodes dirent inodes, writtenLog result = some log ∧
    AppendedAs p erasesize start name file log count nodes dirent inodes

variable (erasesize : ℕ)

/-- The bytes that find a place in a block from an offset on. -/
def room (ofs : ℕ) : ℕ :=
  (erasesize - ofs) / 4164 * 4096 +
    if 196 < (erasesize - ofs) % 4164 then (erasesize - ofs) % 4164 - 68 else 0

/-- The nodes for these. -/
def nodesIn (ofs : ℕ) : ℕ :=
  (erasesize - ofs) / 4164 + if 196 < (erasesize - ofs) % 4164 then 1 else 0

/-- The number of blocks, each but the first one with nodes from 12 on, in front of the
one with the last byte of a file. -/
def lastBlock (ofs size : ℕ) : ℕ :=
  if size ≤ room erasesize ofs then 0
  else (size - 1 - room erasesize ofs) / room erasesize 12 + 1

/-- The number of bytes in front of the last one in its block. -/
def lastByte (ofs size : ℕ) : ℕ :=
  if size ≤ room erasesize ofs then size - 1
  else (size - 1 - room erasesize ofs) % room erasesize 12

/-- The offset behind the last node. -/
def lastEnd (ofs size : ℕ) : ℕ :=
  (if size ≤ room erasesize ofs then ofs else 12) + lastByte erasesize ofs size / 4096 * 4164 +
    68 + (lastByte erasesize ofs size % 4096 + 1)

/-- The number of nodes. -/
def nodeCount (ofs size : ℕ) : ℕ :=
  (if size ≤ room erasesize ofs then 0
    else nodesIn erasesize ofs +
      (size - 1 - room erasesize ofs) / room erasesize 12 * nodesIn erasesize 12) +
    lastByte erasesize ofs size / 4096 + 1

variable {erasesize} {ofs size : ℕ}

theorem room_start_pos (hE : 208 < erasesize) : 0 < room erasesize 12 := by
  unfold room
  split <;> omega

/-- No block comes in front of the nodes. -/
theorem lastBlock_start (hE : 208 < erasesize) (hsize : 0 < size) :
    lastBlock erasesize 12 size = (size - 1) / room erasesize 12 := by
  have hpos := room_start_pos hE
  unfold lastBlock
  split
  · exact (Nat.div_eq_of_lt (by omega)).symm
  · exact (Nat.div_eq_sub_div hpos (by omega)).symm

theorem lastByte_start (hsize : 0 < size) :
    lastByte erasesize 12 size = (size - 1) % room erasesize 12 := by
  unfold lastByte
  split
  · exact (Nat.mod_eq_of_lt (by omega)).symm
  · exact (Nat.mod_eq_sub_mod (by omega)).symm

theorem nodeCount_start (hE : 208 < erasesize) (hsize : 0 < size) : nodeCount erasesize 12 size =
    (size - 1) / room erasesize 12 * nodesIn erasesize 12 +
      (size - 1) % room erasesize 12 / 4096 + 1 := by
  have hpos := room_start_pos hE
  have hblock := lastBlock_start hE hsize
  unfold nodeCount
  unfold lastBlock at hblock
  rw [lastByte_start hsize, ← hblock]
  split
  · rw [Nat.zero_mul]
  · rw [Nat.succ_mul, Nat.add_comm (nodesIn erasesize 12)]

/-- What is left of a block takes so many bytes in at most one node. -/
theorem layout_next (hE : 208 < erasesize) {count : ℕ} (hnodes : nodesIn erasesize ofs = count)
    (hsize : room erasesize ofs < size) :
    lastBlock erasesize ofs size = lastBlock erasesize 12 (size - room erasesize ofs) + 1 ∧
    lastEnd erasesize ofs size = lastEnd erasesize 12 (size - room erasesize ofs) ∧
    nodeCount erasesize ofs size = nodeCount erasesize 12 (size - room erasesize ofs) + count := by
  have hrest : 0 < size - room erasesize ofs := by omega
  have hcomm : size - room erasesize ofs - 1 = size - 1 - room erasesize ofs := by omega
  have hlt : ¬size ≤ room erasesize ofs := Nat.not_le.mpr hsize
  refine ⟨?_, ?_, ?_⟩
  · rw [lastBlock_start hE hrest, lastBlock, if_neg hlt, hcomm]
  · simp only [lastEnd, lastByte_start hrest, ite_self]
    rw [lastByte, if_neg hlt, if_neg hlt, hcomm]
  · rw [nodeCount_start hE hrest, nodeCount, if_neg hlt, lastByte, if_neg hlt, hnodes, hcomm]
    omega

/-- The rest of a block without room for a node, or with room for just one. -/
theorem room_of_le (h : erasesize - ofs ≤ 196) :
    room erasesize ofs = 0 ∧ nodesIn erasesize ofs = 0 := by
  unfold room nodesIn
  constructor <;> split <;> omega

theorem room_of_lt (hlt : 196 < erasesize - ofs) (hle : erasesize - ofs ≤ 4164) :
    room erasesize ofs = erasesize - ofs - 68 ∧ nodesIn erasesize ofs = 1 := by
  unfold room nodesIn
  constructor <;> split <;> omega

/-- A node with 4096 bytes leaves the room behind it. -/
theorem room_step (h : 4164 < erasesize - ofs) :
    room erasesize ofs = room erasesize (ofs + 4164) + 4096 ∧
      nodesIn erasesize ofs = nodesIn erasesize (ofs + 4164) + 1 := by
  have hdiv : (erasesize - ofs) / 4164 = (erasesize - (ofs + 4164)) / 4164 + 1 := by omega
  have hmod : (erasesize - ofs) % 4164 = (erasesize - (ofs + 4164)) % 4164 := by omega
  unfold room nodesIn
  rw [hdiv, hmod]
  constructor <;> omega

/-- The last node of the file. -/
theorem layout_last (hroom : 196 < erasesize - ofs) (hpos : 0 < size)
    (hsize : size ≤ min (erasesize - ofs - 68) 4096) :
    lastBlock erasesize ofs size = 0 ∧ lastEnd erasesize ofs size = ofs + 68 + size ∧
      nodeCount erasesize ofs size = 1 := by
  have hin : size ≤ room erasesize ofs := by
    by_cases hle : erasesize - ofs ≤ 4164
    · have hone := (room_of_lt hroom hle).1
      omega
    · have hstep := (room_step (by omega : 4164 < erasesize - ofs)).1
      omega
  unfold lastBlock lastEnd nodeCount lastByte
  rw [if_pos hin, if_pos hin, if_pos hin, if_pos hin]
  omega

theorem layout_step (h : 4164 < erasesize - ofs) (hsize : 4096 < size) :
    lastBlock erasesize ofs size = lastBlock erasesize (ofs + 4164) (size - 4096) ∧
    lastEnd erasesize ofs size = lastEnd erasesize (ofs + 4164) (size - 4096) ∧
    nodeCount erasesize ofs size = nodeCount erasesize (ofs + 4164) (size - 4096) + 1 := by
  obtain ⟨hroom, hnodes⟩ := room_step h
  have hsub : size - 1 - room erasesize ofs =
      size - 4096 - 1 - room erasesize (ofs + 4164) := by omega
  unfold lastBlock lastEnd nodeCount lastByte
  rw [hsub, hnodes, hroom]
  by_cases hin : size ≤ room erasesize (ofs + 4164) + 4096
  · have hin' : size - 4096 ≤ room erasesize (ofs + 4164) := by omega
    simp only [if_pos hin, if_pos hin']
    have hdiv : (size - 1) / 4096 = (size - 4096 - 1) / 4096 + 1 := by omega
    have hmod : (size - 1) % 4096 = (size - 4096 - 1) % 4096 := by omega
    rw [hdiv, hmod]
    exact ⟨trivial, by omega, by omega⟩
  · have hin' : ¬size - 4096 ≤ room erasesize (ofs + 4164) := by omega
    simp only [if_neg hin, if_neg hin']
    exact ⟨trivial, trivial, by omega⟩

theorem room_le (ofs : ℕ) : room erasesize ofs ≤ erasesize := by
  unfold room
  split <;> omega

/-- So many blocks have room for no more bytes. -/
theorem size_le {n : ℕ} (hE : 208 < erasesize) (h : lastBlock erasesize ofs size < n) :
    size ≤ n * erasesize := by
  have hfirst : room erasesize ofs ≤ erasesize := room_le ofs
  have hother : room erasesize 12 ≤ erasesize := room_le 12
  unfold lastBlock at h
  split at h
  next hin => exact hin.trans (hfirst.trans (Nat.le_mul_of_pos_left erasesize h))
  next =>
    have hrest := Nat.lt_mul_div_succ (size - 1 - room erasesize ofs) (room_start_pos hE)
    have hscaled : room erasesize 12 * ((size - 1 - room erasesize ofs) / room erasesize 12 + 1) ≤
        (n - 1) * erasesize := by
      rw [Nat.mul_comm]
      exact Nat.mul_le_mul (Nat.le_sub_one_of_lt h) hother
    have hone : (n - 1) * erasesize + erasesize = n * erasesize := by
      rw [← Nat.succ_mul, Nat.succ_eq_add_one, Nat.sub_add_cancel (Nat.zero_lt_of_lt h)]
    omega

/-- The nodes in the full blocks and in the buffer. -/
structure Holds (erasesize : ℕ) (w : Output) (full : List (List (List Byte)))
    (last : List (List Byte)) : Prop where
  blocks : List.Forall₂ (FileBlock erasesize) w.blocks full
  marker : cleanmarker <+: w.front
  nodes : Laid 0xff 4 NodeOk 12 (w.front.drop 12) last

/-- The same nodes, and perhaps more blocks without any. -/
def Rolled (full full' : List (List (List Byte))) (last last' : List (List Byte)) : Prop :=
  ∃ k, full' ++ [last'] = full ++ [last] ++ List.replicate k []

/-- The nodes for the pieces of a file. -/
def inodeNodes (st : Stat) (ino isize : ℕ) : ℕ → ℕ → List (List Byte) → List (List Byte)
  | _, _, [] => []
  | offset, version, piece :: pieces =>
      (rawInode st ino (incr version) isize offset piece ++ piece) ::
        inodeNodes st ino isize (offset + piece.length) (incr version) pieces

variable {p : Part} {erasesize start : ℕ} {w : Output} {full full' full'' : List (List (List Byte))}
  {last last' last'' : List (List Byte)}

theorem Rolled.refl : Rolled full full last last := ⟨0, (List.append_nil _).symm⟩

theorem Rolled.next : Rolled full (full ++ [last]) last [] := ⟨1, rfl⟩

theorem Rolled.trans (h : Rolled full full' last last') (h' : Rolled full' full'' last' last'') :
    Rolled full full'' last last'' := by
  obtain ⟨k, hk⟩ := h
  obtain ⟨k', hk'⟩ := h'
  exact ⟨k + k', by rw [hk', hk, List.append_assoc, List.replicate_append_replicate]⟩

theorem Rolled.flatten (h : Rolled full full' last last') :
    full'.flatten ++ last' = full.flatten ++ last := by
  obtain ⟨k, hk⟩ := h
  have hflat := congrArg List.flatten hk
  simpa using hflat

theorem Holds.front_length (h : Holds erasesize w full last) : 12 ≤ w.front.length :=
  h.marker.length_le

theorem mem_fill {n : ℕ} {b : Byte} (h : b ∈ List.replicate n (0xff : Byte)) : b = 0xff :=
  List.eq_of_mem_replicate h

/-- The block with the rest of it filled up. -/
theorem Holds.filled (h : Holds erasesize w full last) (hle : w.front.length ≤ erasesize) :
    FileBlock erasesize (w.front ++ List.replicate (erasesize - w.front.length) 0xff) last where
  length := by
    rw [List.length_append, List.length_replicate]
    omega
  marker := h.marker.trans (List.prefix_append _ _)
  nodes := by
    rw [List.drop_append_of_le_length h.front_length]
    have hfill : Laid 0xff 4 NodeOk (12 + (w.front.drop 12).length)
        (List.replicate (erasesize - w.front.length) 0xff) [] := .rest fun _ => mem_fill
    simpa using h.nodes.append hfill

theorem Holds.next (h : Holds erasesize w full last) (hle : w.front.length ≤ erasesize) :
    Holds erasesize (w.next erasesize) (full ++ [last]) [] where
  blocks := List.rel_append h.blocks (.cons (h.filled hle) .nil)
  marker := List.prefix_rfl
  nodes := .rest fun _ hb => (List.not_mem_nil hb).elim

/-- One more node. -/
theorem Holds.node (h : Holds erasesize w full last) (hunit : 4 ∣ w.front.length)
    {node : List Byte} (hok : NodeOk node) {w' : Output} (hblocks : w'.blocks = w.blocks)
    (hfront : w'.front = w.front ++ node) : Holds erasesize w' full (last ++ [node]) where
  blocks := hblocks ▸ h.blocks
  marker := hfront ▸ h.marker.trans (List.prefix_append _ _)
  nodes := by
    have hlen := h.front_length
    rw [hfront, List.drop_append_of_le_length hlen]
    have hgap : ∀ b ∈ ([] : List Byte), b = 0xff := fun _ hb => (List.not_mem_nil hb).elim
    have hconcat := h.nodes.concat (by
      rw [List.length_drop]
      omega) hok hgap
    rwa [List.append_nil] at hconcat

/-- Filling between the nodes. -/
theorem Holds.fill (h : Holds erasesize w full last) (n : ℕ) :
    Holds erasesize { w with front := w.front ++ List.replicate n 0xff } full last where
  blocks := h.blocks
  marker := h.marker.trans (List.prefix_append _ _)
  nodes := by
    rw [List.drop_append_of_le_length h.front_length]
    have hfill : Laid 0xff 4 NodeOk (12 + (w.front.drop 12).length) (List.replicate n 0xff) [] :=
      .rest fun _ => mem_fill
    simpa using h.nodes.append hfill

theorem Holds.settled (h : Holds erasesize w full last) (hle : w.front.length ≤ erasesize) :
    ∃ full' last', Holds erasesize (w.settled erasesize) full' last' ∧
      Rolled full full' last last' := by
  unfold Output.settled
  split
  · exact ⟨_, _, h.next hle, .next⟩
  · exact ⟨full, last, h.fill _, .refl⟩

theorem Holds.roomy (h : Holds erasesize w full last) (hle : w.front.length ≤ erasesize) :
    ∃ full' last', Holds erasesize (w.roomy erasesize) full' last' ∧
      Rolled full full' last last' := by
  unfold Output.roomy
  split
  · exact ⟨full, last, h, .refl⟩
  · exact ⟨_, _, h.next hle, .next⟩

section

variable {size : ℕ} {data : List Byte} (st : Stat) (ino isize offset : ℕ)

/-- Making room does not change where the bytes come to lie. -/
theorem layout_roomy (hE : 208 < erasesize) (hsize : 0 < size) :
    (w.roomy erasesize).blocks.length + lastBlock erasesize (w.roomy erasesize).front.length size =
      w.blocks.length + lastBlock erasesize w.front.length size ∧
    lastEnd erasesize (w.roomy erasesize).front.length size =
      lastEnd erasesize w.front.length size ∧
    nodeCount erasesize (w.roomy erasesize).front.length size =
      nodeCount erasesize w.front.length size := by
  unfold Output.roomy
  split
  · exact ⟨rfl, rfl, rfl⟩
  next hfull =>
    obtain ⟨hroom, hnodes⟩ := room_of_le (Nat.not_lt.mp hfull)
    obtain ⟨hblock, hend, hcount⟩ := layout_next hE hnodes (hroom.symm ▸ hsize)
    rw [hroom, Nat.sub_zero] at hblock hend hcount
    have hblocks : (w.next erasesize).blocks.length = w.blocks.length + 1 := List.length_append
    have hfront : (w.next erasesize).front.length = 12 := rfl
    rw [hblocks, hfront, hblock, hend, hcount]
    exact ⟨by omega, rfl, rfl⟩

/-- The state behind a node that is not the last one. -/
theorem settled_node (hunit : 4 ∣ w.front.length) (hroom : 196 < erasesize - w.front.length)
    (hdata : data.length = w.space erasesize) :
    (erasesize - w.front.length ≤ 4164 ∧ w.front.length + 68 + data.length = erasesize ∧
      (w.withInode st ino isize offset data).settled erasesize =
        (w.withInode st ino isize offset data).next erasesize) ∨
    (4164 < erasesize - w.front.length ∧ data.length = 4096 ∧
      (w.withInode st ino isize offset data).settled erasesize =
        w.withInode st ino isize offset data) := by
  have hlen : (w.withInode st ino isize offset data).front.length = _ := length_withInode
  unfold Output.space at hdata
  by_cases hle : erasesize - w.front.length ≤ 4164
  · refine .inl ⟨hle, by omega, ?_⟩
    have hfull : erasesize ≤ align (w.withInode st ino isize offset data).front.length := by
      unfold align
      omega
    rw [Output.settled, if_pos hfull]
  · refine .inr ⟨by omega, by omega, ?_⟩
    have hmod : (w.withInode st ino isize offset data).front.length % 4 = 0 := by omega
    have halign := align_of_mod hmod
    have hlt : ¬erasesize ≤ align (w.withInode st ino isize offset data).front.length := by omega
    rw [Output.settled, if_neg hlt, halign, Nat.sub_self, List.replicate_zero, List.append_nil]

/-- Behind such a node the rest lies where it did. -/
theorem layout_node (hE : 208 < erasesize) (hunit : 4 ∣ w.front.length)
    (hroom : 196 < erasesize - w.front.length) (hdata : data.length = w.space erasesize)
    (hsize : data.length < size) {w' : Output}
    (hw' : w' = (w.withInode st ino isize offset data).settled erasesize) :
    (w'.blocks.length + lastBlock erasesize w'.front.length (size - data.length) =
      w.blocks.length + lastBlock erasesize w.front.length size ∧
    lastEnd erasesize w'.front.length (size - data.length) =
      lastEnd erasesize w.front.length size ∧
    nodeCount erasesize w'.front.length (size - data.length) + 1 =
      nodeCount erasesize w.front.length size) ∧
    4 ∣ w'.front.length ∧ w'.front.length < erasesize := by
  have hlen : (w.withInode st ino isize offset data).front.length = _ := length_withInode
  obtain ⟨hle, hfull, hnext⟩ | ⟨hlt, hlong, hsame⟩ :=
    settled_node st ino isize offset hunit hroom hdata
  · rw [hnext] at hw'
    have hblocks : w'.blocks.length = w.blocks.length + 1 := by
      rw [hw']
      exact List.length_append
    have hfront : w'.front.length = 12 := by
      rw [hw']
      rfl
    obtain ⟨hcap, hone⟩ := room_of_lt hroom hle
    have hcap' : room erasesize w.front.length = data.length := by omega
    obtain ⟨hblock, hend, hcount⟩ := layout_next hE hone (hcap'.symm ▸ hsize)
    rw [hcap'] at hblock hend hcount
    rw [hblocks, hfront, hblock, hend, hcount]
    exact ⟨⟨by omega, rfl, rfl⟩, ⟨3, rfl⟩, by omega⟩
  · rw [hsame] at hw'
    have hblocks : w'.blocks.length = w.blocks.length := by
      rw [hw']
      rfl
    have hfront : w'.front.length = w.front.length + 4164 := by
      rw [hw', hlen]
      omega
    obtain ⟨hblock, hend, hcount⟩ := layout_step hlt (hlong ▸ hsize)
    rw [hblocks, hfront, hlong, hblock, hend, hcount]
    exact ⟨⟨rfl, rfl, rfl⟩, by omega, by omega⟩

/-- The nodes for a file from an offset on have been put: the last one is in the buffer,
where the layout says. -/
structure Put (erasesize : ℕ) (st : Stat) (ino isize offset : ℕ) (file : List Byte) (w : Output)
    (full : List (List (List Byte))) (last : List (List Byte)) (w' : Output)
    (full' : List (List (List Byte))) (last' pieces : List (List Byte)) : Prop where
  holds : Holds erasesize w' full' last'
  nonempty : last' ≠ []
  nodes : full'.flatten ++ last' =
    full.flatten ++ last ++ inodeNodes st ino isize offset w.lastVersion pieces
  whole : pieces.flatten = file
  piece : ∀ piece ∈ pieces, piece ≠ [] ∧ piece.length ≤ 4096
  count : pieces.length = nodeCount erasesize w.front.length file.length
  block : w'.blocks.length = w.blocks.length + lastBlock erasesize w.front.length file.length
  ofs : w'.front.length = lastEnd erasesize w.front.length file.length
  ends : w'.front.length ≤ erasesize

theorem lastVersion_roomy : (w.roomy erasesize).lastVersion = w.lastVersion := by
  unfold Output.roomy
  split <;> rfl

theorem lastVersion_settled : (w.settled erasesize).lastVersion = w.lastVersion := by
  unfold Output.settled
  split <;> rfl

theorem roomy_unit (hunit : 4 ∣ w.front.length) : 4 ∣ (w.roomy erasesize).front.length := by
  unfold Output.roomy
  split
  · exact hunit
  · exact ⟨3, rfl⟩

/-- One more inode. -/
theorem Holds.inode (h : Holds erasesize w full last) (hunit : 4 ∣ w.front.length)
    (hdata : data.length < 2 ^ 31) :
    Holds erasesize (w.withInode st ino isize offset data) full
      (last ++ [rawInode st ino (incr w.lastVersion) isize offset data ++ data]) :=
  h.node hunit (.inr (inodeOk_rawInode hdata)) rfl (by rw [Output.withInode, List.append_assoc])

/-- The file ends in the node that is put. -/
theorem put_last (hE : 208 < erasesize) (hne : data ≠ []) (hunit : 4 ∣ w.front.length)
    (hpos : 0 < w.front.length) (hle : w.front.length ≤ erasesize)
    (hsize : data.length ≤ (w.roomy erasesize).space erasesize) (h : Holds erasesize w full last) :
    ∃ full' last', Put erasesize st ino isize offset data w full last
      ((w.roomy erasesize).withInode st ino isize offset data) full' last' [data] := by
  have hlen : ((w.roomy erasesize).withInode st ino isize offset data).front.length = _ :=
    length_withInode
  have hsome := List.length_pos_of_ne_nil hne
  obtain ⟨full', last', hholds, hrolled⟩ := h.roomy hle
  obtain ⟨hblock, hend, hcount⟩ := layout_roomy (w := w) hE hsome
  obtain ⟨-, hroom⟩ := roomy_front (w := w) hE hpos
  obtain ⟨hlast, hofs, hone⟩ := layout_last (by omega) hsome hsize
  unfold Output.space at hsize
  refine ⟨full', _, hholds.inode st ino isize offset (roomy_unit hunit) (by omega), by simp, ?_, by simp, ?_, ?_, ?_, ?_, ?_⟩
  · rw [← List.append_assoc, hrolled.flatten, lastVersion_roomy]
    rfl
  · rintro piece hmem
    rw [List.mem_singleton.mp hmem]
    exact ⟨hne, by omega⟩
  · rw [← hcount, hone]
    rfl
  · rw [← hblock, hlast]
    rfl
  · rw [hlen, ← hend, hofs]
  · rw [hlen]
    omega

/-- A node that is not the last one, and the nodes behind it. -/
theorem put_step (hE : 208 < erasesize) (hunit : 4 ∣ w.front.length) (hpos : 0 < w.front.length)
    (hle : w.front.length ≤ erasesize) (hdata : data.length = (w.roomy erasesize).space erasesize)
    {rest : List Byte} (hrest : rest ≠ []) (h : Holds erasesize w full last) {w₂ : Output}
    (hw₂ : w₂ = ((w.roomy erasesize).withInode st ino isize offset data).settled erasesize) :
    (4 ∣ w₂.front.length ∧ w₂.front.length < erasesize) ∧
    ∃ full₂ last₂, Holds erasesize w₂ full₂ last₂ ∧ ∀ w' full' last' pieces,
      Put erasesize st ino isize (offset + data.length) rest w₂ full₂ last₂ w' full' last' pieces →
      Put erasesize st ino isize offset (data ++ rest) w full last w' full' last' (data :: pieces) := by
  have hlen : ((w.roomy erasesize).withInode st ino isize offset data).front.length = _ :=
    length_withInode
  have hsome := List.length_pos_of_ne_nil hrest
  have hsize : (data ++ rest).length = data.length + rest.length := List.length_append
  obtain ⟨-, hroom⟩ := roomy_front (w := w) hE hpos
  obtain ⟨full₁, last₁, hholds, hrolled⟩ := h.roomy hle
  obtain ⟨hblock, hend, hcount⟩ :=
    layout_roomy (w := w) hE (show 0 < (data ++ rest).length by omega)
  obtain ⟨⟨hblock₂, hend₂, hcount₂⟩, hunit₂, hlt₂⟩ :=
    layout_node st ino isize offset hE (roomy_unit hunit) (by omega) hdata (show data.length < (data ++ rest).length by omega)
      hw₂
  have hspace := hdata
  unfold Output.space at hspace
  have hnode := hholds.inode st ino isize offset (roomy_unit hunit)
    (show data.length < 2 ^ 31 by omega)
  obtain ⟨full₂, last₂, hholds₂, hrolled₂⟩ := hnode.settled (by omega)
  have hrestLength : (data ++ rest).length - data.length = rest.length := by omega
  rw [hrestLength] at hblock₂ hend₂ hcount₂
  rw [← hw₂] at hholds₂
  refine ⟨⟨hunit₂, hlt₂⟩, full₂, last₂, hholds₂, fun w' full' last' pieces hput => ?_⟩
  refine ⟨hput.holds, hput.nonempty, ?_, ?_, ?_, ?_, ?_, ?_, hput.ends⟩
  · have hversion : w₂.lastVersion = incr w.lastVersion := by
      rw [hw₂, lastVersion_settled, Output.withInode, lastVersion_roomy]
    rw [hput.nodes, hrolled₂.flatten, ← List.append_assoc full₁.flatten, hrolled.flatten, hversion,
      lastVersion_roomy, List.append_assoc]
    rfl
  · rw [List.flatten_cons, hput.whole]
  · refine List.forall_mem_cons.mpr ⟨⟨List.ne_nil_of_length_pos (by omega), by omega⟩, hput.piece⟩
  · rw [List.length_cons, hput.count, hcount₂, hcount]
  · rw [hput.block, hblock₂, hblock]
  · rw [hput.ofs, hend₂, hend]

/-- One turn of the loop that puts a node and goes on. -/
theorem turn_emits (hE : 208 < erasesize) (hunit : 4 ∣ w.front.length) (hpos : 0 < w.front.length)
    (hlt : w.front.length < erasesize) (hdata : data.length = (w.roomy erasesize).space erasesize) :
    Emits p erasesize start
      (fun s => makeRoom p erasesize 2 s >>= addNode p erasesize st ino isize offset data) w
      (((w.roomy erasesize).withInode st ino isize offset data).settled erasesize) := by
  obtain ⟨-, hroom⟩ := roomy_front (w := w) hE hpos
  have hunit' : 4 ∣ (w.roomy erasesize).front.length := roomy_unit hunit
  have hspace := hdata
  unfold Output.space at hspace
  refine (makeRoom_emits hE hpos hlt).bind (addNode_emits (by omega) (by omega) ?_)
  obtain ⟨-, hfull, -⟩ | ⟨hlong, hmax, -⟩ :=
    settled_node st ino isize offset hunit' (by omega) hdata
  · exact .inr hfull
  · left
    unfold align
    omega

/-- The loop puts the nodes of the file, and only then looks at the room behind them. -/
theorem addNodes_run (p : Part) (start : ℕ) (hE : 208 < erasesize) {file : List Byte} {turns : ℕ}
    (hne : file ≠ []) (hturns : file.length < turns) (hunit : 4 ∣ w.front.length)
    (hpos : 0 < w.front.length) (hlt : w.front.length < erasesize) (h : Holds erasesize w full last) :
    ∃ w' full' last' pieces op turns' offset',
      Put erasesize st ino isize offset file w full last w' full' last' pieces ∧
      Emits p erasesize start op w w' ∧ ∀ s, At p erasesize start w s →
        addNodes p erasesize st ino isize turns offset file s =
          op s >>= pad p erasesize 4 >>= prepEraseblock erasesize >>=
            addNodes p erasesize st ino isize (turns' + 1) offset' [] := by
  induction turns generalizing file w full last offset with
  | zero => omega
  | succ turns ih =>
    have hsome := List.length_pos_of_ne_nil hne
    have hroom := (roomy_front (w := w) hE hpos).2
    by_cases hsize : file.length ≤ (w.roomy erasesize).space erasesize
    · obtain ⟨full', last', hput⟩ := put_last st ino isize offset hE hne hunit hpos
        (Nat.le_of_lt hlt) hsize h
      have htake : file.take ((w.roomy erasesize).space erasesize) = file :=
        List.take_of_length_le hsize
      unfold Output.space at hsize
      obtain ⟨turns', rfl⟩ : ∃ turns', turns = turns' + 1 := ⟨turns - 1, by omega⟩
      refine ⟨_, full', last', [file], fun s => makeRoom p erasesize 2 s >>= fun s =>
        putInode p erasesize st ino isize offset file s >>= addData p erasesize file, turns',
        offset + file.length, hput,
        (makeRoom_emits hE hpos hlt).bind (putNode_emits (by omega)), fun s hs => ?_⟩
      rw [addNodes_succ hE hpos hlt hs hne, htake, List.drop_length]
      unfold addNode
      simp only [bind_assoc]
    · have hdata : (file.take ((w.roomy erasesize).space erasesize)).length =
          (w.roomy erasesize).space erasesize := by
        rw [List.length_take]
        omega
      have hrest : file.drop ((w.roomy erasesize).space erasesize) ≠ [] := by
        rw [Ne, List.drop_eq_nil_iff]
        exact hsize
      have hspace : 0 < (w.roomy erasesize).space erasesize := by
        unfold Output.space
        omega
      obtain ⟨⟨hunit₂, hlt₂⟩, full₂, last₂, hholds₂, hlift⟩ :=
        put_step st ino isize offset hE hunit hpos (Nat.le_of_lt hlt) hdata hrest h rfl
      obtain ⟨w', full', last', pieces, op, turns', offset', hput, hemits, hrun⟩ :=
        ih (offset + (file.take ((w.roomy erasesize).space erasesize)).length) hrest
          (by rw [List.length_drop]; omega) hunit₂
          (Nat.lt_of_lt_of_le (by decide) hholds₂.front_length) hlt₂ hholds₂
      have hlifted := hlift w' full' last' pieces hput
      rw [List.take_append_drop] at hlifted
      have hturn : Emits p erasesize start _ w _ :=
        turn_emits st ino isize offset hE hunit hpos hlt hdata
      refine ⟨w', full', last', _, _, turns', offset', hlifted, hturn.bind hemits, fun s hs => ?_⟩
      have hleft := hturn.leaves s hs
      rw [addNodes_succ hE hpos hlt hs hne, hdata]
      generalize (makeRoom p erasesize 2 s >>= addNode p erasesize st ino isize offset
        (file.take ((w.roomy erasesize).space erasesize))) = r at hleft ⊢
      cases hleft with
      | exit => rfl
      | ok hs₂ =>
        rw [ok_bind, ok_bind, ← hrun _ hs₂, hdata]

end

end Iot7688.Jffs2.Append
