import Iot7688.Jffs2
import Iot7688.Lib.Crc
import Iot7688.MtdDump

/-!
mtd_replace_jffs2, which appends one file to the JFFS2 data on a partition: a dirent and
the inode nodes with the data, in a buffer of one erase block that is written out when
the next node does not fit. What each part of it emits is said by the bytes in front of
the offset and by the blocks written so far: the blocks of the partition that are not bad
take them in their order, and when there are no more of these, nothing else is written.
The program does not look whether a good block could be erased and written; here it can.
-/
namespace Iot7688.Jffs2.Append

open Lib Mtd

def jffs2NodetypeInode : ℕ := 0xe002

def cleanmarker : List Byte :=
  [0x85, 0x19, 0x03, 0x20, 0x0c, 0x00, 0x00, 0x00, 0xb1, 0xb0, 0x1e, 0xe4]

def jffs2Eof : List Byte := [0xde, 0xad, 0xc0, 0xde]

def poly : BitVec 32 := 0xedb88320#32

/-- crc32 from 0 on; crc32_table is the table of the polynomial. -/
def crc32 (bytes : List Byte) : ℕ := (Crc.updates poly 0#32 bytes).toNat

/-- A step of a counter of 32 bits. -/
def incr (n : ℕ) : ℕ := (n + 1) % 2 ^ 32

/-- The fields of struct stat that go into the nodes. -/
structure Stat where
  mode : ℕ
  atime : ℕ
  mtime : ℕ
  ctime : ℕ

/-- The first eight bytes of a node and their checksum. -/
def nodeHeader (nodetype totlen : ℕ) : List Byte :=
  leBytes 2 jffs2MagicBitmask ++ leBytes 2 nodetype ++ leBytes 4 totlen

def unknownNode (nodetype totlen : ℕ) : List Byte :=
  nodeHeader nodetype totlen ++ leBytes 4 (crc32 (nodeHeader nodetype totlen))

/-- A struct jffs2_raw_dirent up to its checksums. -/
def direntFront (ino pino version type : ℕ) (name : List Byte) : List Byte :=
  unknownNode jffs2NodetypeDirent (40 + name.length) ++ leBytes 4 pino ++ leBytes 4 version ++
    leBytes 4 ino ++ leBytes 4 0 ++ leBytes 1 name.length ++ leBytes 1 type ++ leBytes 2 0

def rawDirent (ino pino version type : ℕ) (name : List Byte) : List Byte :=
  direntFront ino pino version type name ++
    leBytes 4 (crc32 (direntFront ino pino version type name)) ++ leBytes 4 (crc32 name) ++ name

/-- A struct jffs2_raw_inode up to its checksums. -/
def inodeFront (st : Stat) (ino version isize offset len : ℕ) : List Byte :=
  unknownNode jffs2NodetypeInode (68 + len) ++ leBytes 4 ino ++ leBytes 4 version ++
    leBytes 4 st.mode ++ leBytes 2 0 ++ leBytes 2 0 ++ leBytes 4 isize ++ leBytes 4 st.atime ++
    leBytes 4 st.mtime ++ leBytes 4 st.ctime ++ leBytes 4 offset ++ leBytes 4 len ++ leBytes 4 len ++
    leBytes 1 0 ++ leBytes 1 0 ++ leBytes 2 0

/-- The 68 bytes in front of the data. -/
def rawInode (st : Stat) (ino version isize offset : ℕ) (data : List Byte) : List Byte :=
  inodeFront st ino version isize offset data.length ++ leBytes 4 (crc32 data) ++
    leBytes 4 (crc32 (inodeFront st ino version isize offset data.length))

/-- The static variables, and the blocks that were written and where. -/
structure St where
  buf : List Byte
  ofs : ℕ
  mtdofs : ℕ
  lastIno : ℕ
  lastVersion : ℕ
  log : List (ℕ × List Byte)

/-- Why a run stops early: it exits as there is no such block, it writes outside of the
buffer, or the number of turns is too small. -/
inductive Stop
  | exit (log : List (ℕ × List Byte))
  | outside
  | unfinished

section

variable (p : Part) (erasesize : ℕ)

/-- The loop over bad blocks, for a number of turns. -/
def skipBad (log : List (ℕ × List Byte)) : ℕ → ℕ → Except Stop ℕ
  | 0, _ => .error .unfinished
  | turns + 1, mtdofs =>
      match mtdBlockIsBad p (mtdofs / erasesize) with
      | none => .error (.exit log)
      | some bad =>
          if bad && mtdofs < p.blocks * erasesize then skipBad log turns (mtdofs + erasesize)
          else .ok mtdofs

/-- The part of pad for a full buffer: it goes to the next block that is not bad. A write
behind the end of the partition fails, which nothing checks. -/
def flush (s : St) : Except Stop St :=
  (skipBad p erasesize s.log (p.blocks + 1) s.mtdofs).map fun mtdofs =>
    { s with
      mtdofs := mtdofs + erasesize
      log := if mtdofs < p.blocks * erasesize then s.log ++ [(mtdofs, s.buf)] else s.log }

/-- memcpy to the end of the data in the buffer. -/
def memcpy (bytes : List Byte) (s : St) : Except Stop St :=
  if s.ofs + bytes.length ≤ erasesize then
    .ok { s with buf := patch s.buf s.ofs bytes, ofs := s.ofs + bytes.length }
  else .error .outside

/-- From `ofs = ofs % erasesize` on. -/
def wrap (s : St) : Except Stop St :=
  if s.ofs % erasesize = 0 then flush p erasesize { s with ofs := 0 }
  else .ok { s with ofs := s.ofs % erasesize }

def pad (size : ℕ) (s : St) : Except Stop St :=
  if s.ofs % size = 0 ∧ s.ofs < erasesize then .ok s
  else if s.ofs < erasesize then
    memcpy erasesize (List.replicate (size - s.ofs % size) 0xff) s >>= wrap p erasesize
  else wrap p erasesize s

/-- The call of add_data in it never starts another block, which has room for the marker. -/
def prepEraseblock (s : St) : Except Stop St :=
  if s.ofs > 0 then .ok s else memcpy erasesize cleanmarker s

/-- pad and prep_eraseblock: the next block is begun. -/
def nextBlock (s : St) : Except Stop St := pad p erasesize erasesize s >>= prepEraseblock erasesize

def addData (bytes : List Byte) (s : St) : Except Stop St :=
  if s.ofs + bytes.length > erasesize then nextBlock p erasesize s >>= memcpy erasesize bytes
  else memcpy erasesize bytes s

/-- The part of add_dirent that fills in the dirent. -/
def putDirent (name : List Byte) (type parent : ℕ) (s : St) : Except Stop St :=
  memcpy erasesize (rawDirent (incr s.lastIno) parent s.lastVersion type name)
    { s with
      lastIno := incr (incr s.lastIno)
      lastVersion := incr s.lastVersion }

/-- add_dirent. The test for room is made with the unsigned difference of the offset and
the erase size. -/
def addDirent (name : List Byte) (type parent : ℕ) (s : St) : Except Stop St :=
  (if (s.ofs + 2 ^ 32 - erasesize) % 2 ^ 32 < 40 + name.length then pad p erasesize erasesize s
    else .ok s) >>= prepEraseblock erasesize >>= putDirent erasesize name type parent >>=
      pad p erasesize 4

def rbytes (s : St) : ℕ := erasesize - s.ofs % erasesize

/-- The inner loop of add_file, for a number of turns. -/
def makeRoom : ℕ → St → Except Stop St
  | 0, _ => .error .unfinished
  | turns + 1, s =>
      if 68 + 128 < rbytes erasesize s then .ok s else nextBlock p erasesize s >>= makeRoom turns

/-- The length of the next read. -/
def readLen (s : St) : ℕ := min (rbytes erasesize s - 68) 4096

/-- The call of add_data for the inode, with its version. -/
def putInode (st : Stat) (ino isize offset : ℕ) (data : List Byte) (s : St) : Except Stop St :=
  addData p erasesize (rawInode st ino (incr s.lastVersion) isize offset data)
    { s with lastVersion := incr s.lastVersion }

/-- The part of the loop behind a read of some bytes. -/
def addNode (st : Stat) (ino isize offset : ℕ) (data : List Byte) (s : St) : Except Stop St :=
  putInode p erasesize st ino isize offset data s >>= addData p erasesize data >>=
    pad p erasesize 4 >>= prepEraseblock erasesize

/-- The loop of add_file over the rest of the file, for a number of turns. -/
def addNodes (st : Stat) (ino isize : ℕ) : ℕ → ℕ → List Byte → St → Except Stop St
  | 0, _, _, _ => .error .unfinished
  | turns + 1, offset, rest, s =>
      makeRoom p erasesize 2 s >>= fun s =>
        let data := rest.take (readLen erasesize s)
        if data.length = 0 then .ok s
        else addNode p erasesize st ino isize offset data s >>=
          addNodes st ino isize turns (offset + data.length) (rest.drop data.length)

/-- add_file on a file that exists: its last name, the result of stat and the contents.
The inode number is the one that add_dirent returns. -/
def addFile (name : List Byte) (st : Stat) (file : List Byte) (parent : ℕ) (s : St) :
    Except Stop St :=
  addDirent p erasesize name 8 parent s >>=
    addNodes p erasesize st (incr s.lastIno) file.length (file.length + 1) 0 file

/-- mtd_replace_jffs2 behind its first lines. -/
def mtdReplaceJffs2 (name : List Byte) (st : Stat) (file : List Byte) (s : St) : Except Stop St :=
  addFile p erasesize name st file 1 { s with lastIno := if s.lastIno = 0 then 1 else s.lastIno } >>=
    pad p erasesize erasesize >>= addData p erasesize jffs2Eof >>= pad p erasesize erasesize

end

/-- The state before: a buffer with any bytes, nothing in it yet. -/
def fresh (buf : List Byte) (mtdofs lastIno lastVersion : ℕ) : St where
  buf := buf
  ofs := 0
  mtdofs := mtdofs
  lastIno := lastIno
  lastVersion := lastVersion
  log := []

/-- The blocks from one on that are not marked as bad. -/
def goodFrom (p : Part) (start : ℕ) : List ℕ :=
  (List.range' start (p.blocks - start)).filter fun k => !p.marked k

/-- The blocks where they are put, as far as there are any. -/
def placed (p : Part) (erasesize start : ℕ) (blocks : List (List Byte)) : List (ℕ × List Byte) :=
  ((goodFrom p start).map (· * erasesize)).zip blocks

/-- What was emitted: the full blocks and the bytes behind them, and the counters. -/
structure Output where
  blocks : List (List Byte)
  front : List Byte
  lastIno : ℕ
  lastVersion : ℕ

section

variable (p : Part) (erasesize start : ℕ)

/-- The state is the one behind the output. -/
structure At (w : Output) (s : St) : Prop where
  buf : s.buf.length = erasesize
  ofs : s.ofs ≤ erasesize
  front : s.buf.take s.ofs = w.front
  lastIno : s.lastIno = w.lastIno
  lastVersion : s.lastVersion = w.lastVersion
  pos : ∃ k, s.mtdofs = k * erasesize ∧ goodFrom p k = (goodFrom p start).drop w.blocks.length
  log : s.log = placed p erasesize start w.blocks

/-- A run emits the output, or exits as there is no block for some of it. -/
inductive Leaves (w : Output) : Except Stop St → Prop
  | ok {s : St} : At p erasesize start w s → Leaves w (.ok s)
  | exit {log : List (ℕ × List Byte)} : log = placed p erasesize start w.blocks →
      (goodFrom p start).length < w.blocks.length → Leaves w (.error (.exit log))

/-- A run that writes outside of the buffer behind the output, if it does not exit before. -/
inductive Breaks (w : Output) : Except Stop St → Prop
  | outside : Breaks w (.error .outside)
  | exit {log : List (ℕ × List Byte)} : log = placed p erasesize start w.blocks →
      (goodFrom p start).length < w.blocks.length → Breaks w (.error (.exit log))

/-- From the first output on the operation emits what the second one has more. -/
structure Emits (op : St → Except Stop St) (w w' : Output) : Prop where
  blocks : w.blocks <+: w'.blocks
  leaves : ∀ s, At p erasesize start w s → Leaves p erasesize start w' (op s)

end

theorem goodFrom_of_le {p : Part} {k : ℕ} (h : p.blocks ≤ k) : goodFrom p k = [] := by
  rw [goodFrom, Nat.sub_eq_zero_of_le h]
  rfl

theorem goodFrom_of_lt {p : Part} {k : ℕ} (h : k < p.blocks) :
    goodFrom p k = if p.marked k then goodFrom p (k + 1) else k :: goodFrom p (k + 1) := by
  have hlen : p.blocks - k = p.blocks - (k + 1) + 1 := by omega
  rw [goodFrom, hlen, List.range'_succ, List.filter_cons]
  cases p.marked k <;> rfl

/-- The blocks behind the first good one. -/
theorem goodFrom_succ {p : Part} {k g : ℕ} {rest : List ℕ} (h : goodFrom p k = g :: rest) :
    k ≤ g ∧ g < p.blocks ∧ goodFrom p (g + 1) = rest := by
  induction hn : p.blocks - k generalizing k with
  | zero =>
    rw [goodFrom_of_le (by omega)] at h
    cases h
  | succ n ih =>
    rw [goodFrom_of_lt (by omega)] at h
    split at h
    · obtain ⟨hle, hlt, hrest⟩ := ih h (by omega)
      exact ⟨by omega, hlt, hrest⟩
    · obtain ⟨rfl, rfl⟩ := List.cons.inj h
      exact ⟨le_rfl, by omega, rfl⟩

theorem zip_concat {α β : Type*} (as : List α) (bs : List β) (b : β) :
    as.zip (bs ++ [b]) = as.zip bs ++ (as.drop bs.length).head?.toList.map (·, b) := by
  induction bs generalizing as with
  | nil => cases as <;> simp
  | cons c bs ih => cases as <;> simp [ih]

theorem zip_append_of_le {α β : Type*} {as : List α} {bs : List β} (h : as.length ≤ bs.length)
    (rest : List β) : as.zip (bs ++ rest) = as.zip bs := by
  induction as generalizing bs with
  | nil => rfl
  | cons a as ih =>
    cases bs with
    | nil => cases h
    | cons b bs => exact congrArg ((a, b) :: ·) (ih (Nat.le_of_succ_le_succ h))

section

variable {p : Part} {erasesize start : ℕ} (hE : 0 < erasesize)

include hE

theorem skipBad_good {log : List (ℕ × List Byte)} {turns k g : ℕ} {rest : List ℕ}
    (hturns : p.blocks - k < turns) (h : goodFrom p k = g :: rest) :
    skipBad p erasesize log turns (k * erasesize) = .ok (g * erasesize) := by
  induction turns generalizing k with
  | zero => omega
  | succ turns ih =>
    have hk : k < p.blocks := by
      by_contra hle
      rw [goodFrom_of_le (Nat.le_of_not_lt hle)] at h
      cases h
    have hin : k * erasesize < p.blocks * erasesize := Nat.mul_lt_mul_of_pos_right hk hE
    have hlook : mtdBlockIsBad p k = some (p.marked k) := by
      unfold mtdBlockIsBad Part.marked
      rw [if_pos hk]
      cases p.nand <;> rfl
    rw [goodFrom_of_lt hk] at h
    unfold skipBad
    rw [Nat.mul_div_cancel k hE, hlook]
    by_cases hbad : p.marked k = true
    · rw [if_pos hbad] at h
      simp only [hbad, Bool.true_and, decide_eq_true hin, if_true]
      rw [← Nat.succ_mul]
      exact ih (by omega) h
    · rw [if_neg hbad] at h
      rw [Bool.not_eq_true] at hbad
      simp only [hbad, Bool.false_and, Bool.false_eq_true, if_false]
      rw [(List.cons.inj h).1]

omit hE in
theorem marked_of_goodFrom {k : ℕ} (h : goodFrom p k = []) (hk : k < p.blocks) :
    p.marked k = true := by
  rw [goodFrom_of_lt hk] at h
  by_contra hbad
  rw [if_neg hbad] at h
  cases h

/-- With no good block left NAND flash makes the program exit. -/
theorem skipBad_none {log : List (ℕ × List Byte)} {turns k : ℕ} (hturns : p.blocks - k < turns)
    (h : goodFrom p k = []) :
    skipBad p erasesize log turns (k * erasesize) =
      if p.nand then .error (.exit log) else .ok (k * erasesize) := by
  induction turns generalizing k with
  | zero => omega
  | succ turns ih =>
    unfold skipBad mtdBlockIsBad
    rw [Nat.mul_div_cancel k hE]
    by_cases hk : k < p.blocks
    · have hin : k * erasesize < p.blocks * erasesize := Nat.mul_lt_mul_of_pos_right hk hE
      have hbad := marked_of_goodFrom h hk
      rw [goodFrom_of_lt hk, if_pos hbad] at h
      rw [Part.marked, Bool.and_eq_true] at hbad
      simp only [if_pos hbad.1, if_pos hk, hbad.2, Bool.true_and, decide_eq_true hin, if_true]
      rw [← Nat.succ_mul, ih (by omega) h, if_pos hbad.1]
    · cases p.nand <;> simp [hk]

variable {w w' w'' : Output} {s : St}

omit hE in
theorem placed_concat (blocks : List (List Byte)) (block : List Byte) :
    placed p erasesize start (blocks ++ [block]) = placed p erasesize start blocks ++
      ((goodFrom p start).drop blocks.length).head?.toList.map fun k => (k * erasesize, block) := by
  rw [placed, zip_concat, ← List.map_drop, List.head?_map, placed]
  cases ((goodFrom p start).drop blocks.length).head? <;> rfl

omit hE in
/-- Behind the last good block nothing more is placed. -/
theorem placed_of_more {blocks blocks' : List (List Byte)} (h : blocks <+: blocks')
    (hlen : (goodFrom p start).length ≤ blocks.length) :
    placed p erasesize start blocks' = placed p erasesize start blocks := by
  obtain ⟨rest, rfl⟩ := h
  exact zip_append_of_le (by rwa [List.length_map]) rest

/-- A full buffer goes to the next good block. -/
theorem flush_leaves (h : At p erasesize start w s) (hfull : w.front.length = erasesize) :
    Leaves p erasesize start { w with blocks := w.blocks ++ [w.front], front := [] }
      (flush p erasesize { s with ofs := 0 }) := by
  obtain ⟨k, hpos, hgood⟩ := h.pos
  have hbuf : s.buf = w.front := by
    have hlen := congrArg List.length h.front
    rw [List.length_take] at hlen
    rw [← h.front, List.take_of_length_le]
    have hlen' := h.buf
    omega
  have hturns : p.blocks - k < p.blocks + 1 := by omega
  have hlog : placed p erasesize start (w.blocks ++ [w.front]) = _ :=
    placed_concat w.blocks w.front
  unfold flush
  rw [← hgood] at hlog
  cases hnext : goodFrom p k with
  | nil =>
    rw [hnext, List.head?_nil, Option.toList_none, List.map_nil, List.append_nil] at hlog
    have hend : (goodFrom p start).length ≤ w.blocks.length :=
      List.drop_eq_nil_iff.mp (hgood.symm.trans hnext)
    simp only [hpos, skipBad_none hE hturns hnext]
    cases hnand : p.nand with
    | true =>
      refine .exit (h.log.trans hlog.symm) ?_
      simp only [List.length_append, List.length_singleton]
      omega
    | false =>
      have hk : p.blocks ≤ k := by
        by_contra hlt
        have hbad := marked_of_goodFrom hnext (by omega)
        rw [Part.marked, hnand] at hbad
        cases hbad
      have hout : ¬k * erasesize < p.blocks * erasesize :=
        Nat.not_lt.mpr (Nat.mul_le_mul_right erasesize hk)
      refine .ok ⟨h.buf, Nat.zero_le _, rfl, h.lastIno, h.lastVersion, ⟨k + 1, ?_, ?_⟩, ?_⟩
      · exact (Nat.succ_mul k erasesize).symm
      · rw [goodFrom_of_le (by omega), List.drop_eq_nil_of_le]
        simp only [List.length_append, List.length_singleton]
        omega
      · simp only [if_neg hout]
        exact h.log.trans hlog.symm
  | cons g rest =>
    obtain ⟨-, hlt, hrest⟩ := goodFrom_succ hnext
    have hin : g * erasesize < p.blocks * erasesize := Nat.mul_lt_mul_of_pos_right hlt hE
    rw [hnext, List.head?_cons, Option.toList_some, List.map_singleton] at hlog
    simp only [hpos, skipBad_good hE hturns hnext]
    refine .ok ⟨h.buf, Nat.zero_le _, rfl, h.lastIno, h.lastVersion, ⟨g + 1, ?_, ?_⟩, ?_⟩
    · exact (Nat.succ_mul g erasesize).symm
    · rw [hrest, List.length_append, List.length_singleton, ← List.drop_drop, ← hgood, hnext]
      rfl
    · simp only [if_pos hin, hbuf]
      rw [hlog, h.log]

omit hE

theorem ok_bind (s : St) (op : St → Except Stop St) : Except.ok s >>= op = op s := rfl

theorem Leaves.bind {r : Except Stop St} {op : St → Except Stop St}
    (h : Leaves p erasesize start w r) (hop : Emits p erasesize start op w w') :
    Leaves p erasesize start w' (r >>= op) := by
  cases h with
  | ok hs => exact hop.leaves _ hs
  | exit hlog hlt =>
    exact .exit (hlog.trans (placed_of_more hop.blocks (Nat.le_of_lt hlt)).symm)
      (hlt.trans_le hop.blocks.length_le)

theorem Leaves.breaks {r : Except Stop St} {op : St → Except Stop St}
    (h : Leaves p erasesize start w r)
    (hop : ∀ s, At p erasesize start w s → Breaks p erasesize start w' (op s))
    (hblocks : w.blocks <+: w'.blocks) : Breaks p erasesize start w' (r >>= op) := by
  cases h with
  | ok hs => exact hop _ hs
  | exit hlog hlt =>
    exact .exit (hlog.trans (placed_of_more hblocks (Nat.le_of_lt hlt)).symm)
      (hlt.trans_le hblocks.length_le)

theorem Breaks.bind {r : Except Stop St} (h : Breaks p erasesize start w r)
    (op : St → Except Stop St) : Breaks p erasesize start w (r >>= op) := by
  cases h with
  | outside => exact .outside
  | exit hlog hlt => exact .exit hlog hlt

theorem Emits.bind {op op' : St → Except Stop St} (h : Emits p erasesize start op w w')
    (h' : Emits p erasesize start op' w' w'') :
    Emits p erasesize start (fun s => op s >>= op') w w'' :=
  ⟨h.blocks.trans h'.blocks, fun s hs => (h.leaves s hs).bind h'⟩

theorem At.length_front (h : At p erasesize start w s) : w.front.length = s.ofs := by
  rw [← h.front, List.length_take, h.buf, Nat.min_eq_left h.ofs]

theorem memcpy_emits {bytes : List Byte} (hfit : w.front.length + bytes.length ≤ erasesize) :
    Emits p erasesize start (memcpy erasesize bytes) w { w with front := w.front ++ bytes } := by
  refine ⟨List.prefix_rfl, fun s hs => ?_⟩
  have hlen := hs.length_front
  have hbuf := hs.buf
  have hin : s.ofs + bytes.length ≤ erasesize := by omega
  rw [memcpy, if_pos hin]
  refine .ok ⟨?_, hin, ?_, hs.lastIno, hs.lastVersion, hs.pos, hs.log⟩
  · exact (length_patch (by omega)).trans hbuf
  · exact (take_patch_end bytes (by omega)).trans (congrArg (· ++ bytes) hs.front)

/-- The block is written, with the rest of it filled up. -/
def Output.flushed (erasesize : ℕ) (w : Output) : Output :=
  { w with
    blocks := w.blocks ++ [w.front ++ List.replicate (erasesize - w.front.length) 0xff]
    front := [] }

/-- The next block is begun. -/
def Output.next (erasesize : ℕ) (w : Output) : Output :=
  { w.flushed erasesize with front := cleanmarker }

theorem wrap_emits_full (hE : 0 < erasesize) (h : w.front.length = erasesize) :
    Emits p erasesize start (wrap p erasesize) w (w.flushed erasesize) := by
  refine ⟨List.prefix_append _ _, fun s hs => ?_⟩
  have hofs : s.ofs = erasesize := hs.length_front.symm.trans h
  rw [wrap, hofs, Nat.mod_self, if_pos rfl, Output.flushed, h, Nat.sub_self, List.replicate_zero,
    List.append_nil]
  exact flush_leaves hE hs h

theorem wrap_emits_part (hpos : 0 < w.front.length) (hlt : w.front.length < erasesize) :
    Emits p erasesize start (wrap p erasesize) w w := by
  refine ⟨List.prefix_rfl, fun s hs => ?_⟩
  have hlen := hs.length_front
  have hmod : s.ofs % erasesize = s.ofs := Nat.mod_eq_of_lt (by omega)
  rw [wrap, hmod, if_neg (by omega)]
  exact .ok hs

section

variable {size : ℕ}

theorem pad_emits_self (hmod : w.front.length % size = 0) (hlt : w.front.length < erasesize) :
    Emits p erasesize start (pad p erasesize size) w w := by
  refine ⟨List.prefix_rfl, fun s hs => ?_⟩
  have hlen := hs.length_front
  rw [pad, if_pos (by rw [← hlen]; exact ⟨hmod, hlt⟩)]
  exact .ok hs

theorem pad_emits_full (hE : 0 < erasesize) (h : w.front.length = erasesize) :
    Emits p erasesize start (pad p erasesize size) w (w.flushed erasesize) := by
  refine ⟨List.prefix_append _ _, fun s hs => ?_⟩
  have hlen := hs.length_front
  rw [pad, if_neg (by omega), if_neg (by omega)]
  exact (wrap_emits_full hE h).leaves s hs

/-- A buffer with room for so many bytes is filled up before the rest of pad. -/
theorem pad_emits_of_fill (hmod : w.front.length % size ≠ 0) (hlt : w.front.length < erasesize)
    (hfit : w.front.length + (size - w.front.length % size) ≤ erasesize)
    (hwrap : Emits p erasesize start (wrap p erasesize)
      { w with front := w.front ++ List.replicate (size - w.front.length % size) 0xff } w') :
    Emits p erasesize start (pad p erasesize size) w w' := by
  have hmem : Emits p erasesize start
      (memcpy erasesize (List.replicate (size - w.front.length % size) 0xff)) w _ :=
    memcpy_emits (by rwa [List.length_replicate])
  refine ⟨(hmem.bind hwrap).blocks, fun s hs => ?_⟩
  have hlen := hs.length_front
  rw [pad, if_neg (by rw [← hlen]; exact fun h => hmod h.1), if_pos (by omega), ← hlen]
  exact (hmem.bind hwrap).leaves s hs

theorem pad_emits_fill (hmod : w.front.length % size ≠ 0)
    (hfit : w.front.length + (size - w.front.length % size) < erasesize) :
    Emits p erasesize start (pad p erasesize size) w
      { w with front := w.front ++ List.replicate (size - w.front.length % size) 0xff } := by
  refine pad_emits_of_fill hmod (by omega) (Nat.le_of_lt hfit) (wrap_emits_part ?_ ?_) <;>
    simp only [List.length_append, List.length_replicate]
  · have hpos : w.front.length ≠ 0 := fun h => hmod (by rw [h, Nat.zero_mod])
    omega
  · exact hfit

theorem pad_emits_flush (hsize : 0 < size) (hmod : w.front.length % size ≠ 0)
    (hfit : w.front.length + (size - w.front.length % size) = erasesize) :
    Emits p erasesize start (pad p erasesize size) w (w.flushed erasesize) := by
  have hrest := Nat.mod_lt w.front.length hsize
  have hlen : (w.front ++ List.replicate (size - w.front.length % size) (0xff : Byte)).length =
      erasesize := by rwa [List.length_append, List.length_replicate]
  have hfull : Emits p erasesize start (wrap p erasesize)
      { w with front := w.front ++ List.replicate (size - w.front.length % size) 0xff } _ :=
    wrap_emits_full (by omega) hlen
  have hsame : Output.flushed erasesize
      { w with front := w.front ++ List.replicate (size - w.front.length % size) 0xff } =
      w.flushed erasesize := by
    have hfill : size - w.front.length % size = erasesize - w.front.length := by omega
    simp only [Output.flushed]
    rw [hlen, Nat.sub_self, List.replicate_zero, List.append_nil, hfill]
  rw [hsame] at hfull
  exact pad_emits_of_fill hmod (by omega) (Nat.le_of_eq hfit) hfull

end

theorem pad_erasesize_emits (hpos : 0 < w.front.length) (hle : w.front.length ≤ erasesize) :
    Emits p erasesize start (pad p erasesize erasesize) w (w.flushed erasesize) := by
  rcases Nat.eq_or_lt_of_le hle with heq | hlt
  · exact pad_emits_full (by omega) heq
  · have hmod := Nat.mod_eq_of_lt hlt
    exact pad_emits_flush (by omega) (by omega) (by omega)

theorem prepEraseblock_emits_marker (h : w.front = []) (hE : 12 ≤ erasesize) :
    Emits p erasesize start (prepEraseblock erasesize) w { w with front := cleanmarker } := by
  have hmem : Emits p erasesize start (memcpy erasesize cleanmarker) w _ :=
    memcpy_emits (by rw [h]; exact hE)
  rw [h, List.nil_append] at hmem
  refine ⟨hmem.blocks, fun s hs => ?_⟩
  have hlen := hs.length_front
  rw [h, List.length_nil] at hlen
  rw [prepEraseblock, if_neg (by omega)]
  exact hmem.leaves s hs

theorem prepEraseblock_emits_self (h : 0 < w.front.length) :
    Emits p erasesize start (prepEraseblock erasesize) w w := by
  refine ⟨List.prefix_rfl, fun s hs => ?_⟩
  have hlen := hs.length_front
  rw [prepEraseblock, if_pos (by omega)]
  exact .ok hs

theorem nextBlock_emits (hpos : 0 < w.front.length) (hle : w.front.length ≤ erasesize)
    (hE : 12 ≤ erasesize) :
    Emits p erasesize start (nextBlock p erasesize) w (w.next erasesize) :=
  (pad_erasesize_emits hpos hle).bind (prepEraseblock_emits_marker rfl hE)

theorem addData_emits {bytes : List Byte} (hfit : w.front.length + bytes.length ≤ erasesize) :
    Emits p erasesize start (addData p erasesize bytes) w { w with front := w.front ++ bytes } := by
  refine ⟨List.prefix_rfl, fun s hs => ?_⟩
  have hlen := hs.length_front
  rw [addData, if_neg (by omega)]
  exact (memcpy_emits hfit).leaves s hs

/-- The length up to the next multiple of 4. -/
def align (len : ℕ) : ℕ := (len + 3) / 4 * 4

/-- The next node may begin, in the next block if this one is full. -/
def Output.settled (erasesize : ℕ) (w : Output) : Output :=
  if erasesize ≤ align w.front.length then w.next erasesize
  else { w with front := w.front ++ List.replicate (align w.front.length - w.front.length) 0xff }

theorem align_of_mod {len : ℕ} (h : len % 4 = 0) : align len = len := by
  unfold align
  omega

theorem align_of_mod_ne {len : ℕ} (h : len % 4 ≠ 0) : align len = len + (4 - len % 4) := by
  unfold align
  omega

theorem pad_four_emits (hlt : align w.front.length < erasesize) :
    Emits p erasesize start (pad p erasesize 4) w (w.settled erasesize) := by
  rw [Output.settled, if_neg (by omega)]
  by_cases hmod : w.front.length % 4 = 0
  · rw [align_of_mod hmod] at hlt ⊢
    rw [Nat.sub_self, List.replicate_zero, List.append_nil]
    exact pad_emits_self hmod hlt
  · rw [align_of_mod_ne hmod] at hlt ⊢
    rw [Nat.add_sub_cancel_left]
    exact pad_emits_fill hmod hlt

theorem settle_emits (hE : 12 ≤ erasesize) (hpos : 0 < w.front.length)
    (hfit : align w.front.length ≤ erasesize ∨ w.front.length = erasesize) :
    Emits p erasesize start (fun s => pad p erasesize 4 s >>= prepEraseblock erasesize) w
      (w.settled erasesize) := by
  by_cases hlt : align w.front.length < erasesize
  · refine (pad_four_emits hlt).bind (prepEraseblock_emits_self ?_)
    rw [Output.settled, if_neg (by omega)]
    simp only [List.length_append]
    omega
  rw [Output.settled, if_pos (by omega)]
  by_cases hfull : w.front.length = erasesize
  · exact (pad_emits_full (by omega) hfull).bind (prepEraseblock_emits_marker rfl hE)
  · have hend : align w.front.length = erasesize := by omega
    have hmod : w.front.length % 4 ≠ 0 := fun h => hfull ((align_of_mod h).symm.trans hend)
    rw [align_of_mod_ne hmod] at hend
    exact (pad_emits_flush (by omega) hmod hend).bind (prepEraseblock_emits_marker rfl hE)

/-- pad finds no room for the bytes up to the next multiple of 4. -/
theorem pad_four_outside (hs : At p erasesize start w s) (hlt : w.front.length < erasesize)
    (hover : erasesize < align w.front.length) : pad p erasesize 4 s = .error .outside := by
  have hlen := hs.length_front
  have hmod : w.front.length % 4 ≠ 0 := fun h => by
    rw [align_of_mod h] at hover
    omega
  rw [align_of_mod_ne hmod, hlen] at hover
  rw [hlen] at hmod
  rw [pad, if_neg fun h => hmod h.1, if_pos (by omega), memcpy, if_neg (by
    rw [List.length_replicate]
    omega)]
  rfl

/-- The counters go on. -/
theorem At.counters (h : At p erasesize start w s) (ino version : ℕ) :
    At p erasesize start { w with lastIno := ino, lastVersion := version }
      { s with lastIno := ino, lastVersion := version } :=
  ⟨h.buf, h.ofs, h.front, rfl, rfl, h.pos, h.log⟩

def Output.withDirent (name : List Byte) (type parent : ℕ) (w : Output) : Output where
  blocks := w.blocks
  front := w.front ++ rawDirent (incr w.lastIno) parent w.lastVersion type name
  lastIno := incr (incr w.lastIno)
  lastVersion := incr w.lastVersion

def Output.withInode (st : Stat) (ino isize offset : ℕ) (data : List Byte) (w : Output) : Output where
  blocks := w.blocks
  front := w.front ++ rawInode st ino (incr w.lastVersion) isize offset data ++ data
  lastIno := w.lastIno
  lastVersion := incr w.lastVersion

@[simp] theorem length_rawDirent (ino pino version type : ℕ) (name : List Byte) :
    (rawDirent ino pino version type name).length = 40 + name.length := by
  simp only [rawDirent, direntFront, unknownNode, nodeHeader, List.length_append, leBytes_length]

@[simp] theorem length_rawInode (st : Stat) (ino version isize offset : ℕ) (data : List Byte) :
    (rawInode st ino version isize offset data).length = 68 := by
  simp [rawInode, inodeFront, unknownNode, nodeHeader]

variable {name data rest : List Byte} {type parent : ℕ} {st : Stat} {ino isize offset turns : ℕ}

theorem putDirent_emits (hfit : w.front.length + (40 + name.length) ≤ erasesize) :
    Emits p erasesize start (putDirent erasesize name type parent) w
      (w.withDirent name type parent) := by
  refine ⟨List.prefix_rfl, fun s hs => ?_⟩
  have hmem : Emits p erasesize start
      (memcpy erasesize (rawDirent (incr w.lastIno) parent w.lastVersion type name))
      { w with lastIno := incr (incr w.lastIno), lastVersion := incr w.lastVersion }
      (w.withDirent name type parent) := memcpy_emits (by rwa [length_rawDirent])
  rw [putDirent, hs.lastIno, hs.lastVersion]
  exact hmem.leaves _ (hs.counters _ _)

theorem putInode_emits (hfit : w.front.length + 68 ≤ erasesize) :
    Emits p erasesize start (putInode p erasesize st ino isize offset data) w
      { w with
        front := w.front ++ rawInode st ino (incr w.lastVersion) isize offset data
        lastVersion := incr w.lastVersion } := by
  refine ⟨List.prefix_rfl, fun s hs => ?_⟩
  have hadd : Emits p erasesize start
      (addData p erasesize (rawInode st ino (incr w.lastVersion) isize offset data))
      { w with lastVersion := incr w.lastVersion } _ :=
    addData_emits (by rwa [length_rawInode])
  rw [putInode, hs.lastVersion]
  exact hadd.leaves _ ⟨hs.buf, hs.ofs, hs.front, hs.lastIno, rfl, hs.pos, hs.log⟩

/-- The dirent comes behind the marker of the first block. -/
theorem addDirent_emits (hempty : w.front = []) (hE : 55 + name.length < erasesize)
    (hlt : erasesize < 2 ^ 31) :
    Emits p erasesize start (addDirent p erasesize name type parent) w
      ((({ w with front := cleanmarker } : Output).withDirent name type parent).settled
        erasesize) := by
  have hput : Emits p erasesize start (putDirent erasesize name type parent)
      { w with front := cleanmarker } _ := putDirent_emits (by
    show 12 + (40 + name.length) ≤ erasesize
    omega)
  have hpad : Emits p erasesize start (pad p erasesize 4)
      (({ w with front := cleanmarker } : Output).withDirent name type parent) _ :=
    pad_four_emits (by
      rw [Output.withDirent, List.length_append, length_rawDirent]
      show align (12 + (40 + name.length)) < erasesize
      unfold align
      omega)
  have hops := ((prepEraseblock_emits_marker hempty (by omega)).bind hput).bind hpad
  refine ⟨hops.blocks, fun s hs => ?_⟩
  have hlen := hs.length_front
  rw [hempty, List.length_nil] at hlen
  rw [addDirent, if_neg (by omega)]
  exact hops.leaves s hs

/-- A block with room for the next node, this one or the next one. -/
def Output.roomy (erasesize : ℕ) (w : Output) : Output :=
  if 196 < erasesize - w.front.length then w else w.next erasesize

theorem makeRoom_emits (hE : 208 < erasesize) (hpos : 0 < w.front.length)
    (hlt : w.front.length < erasesize) :
    Emits p erasesize start (makeRoom p erasesize 2) w (w.roomy erasesize) := by
  have hself : ∀ {w : Output} {turns : ℕ}, w.front.length < erasesize →
      196 < erasesize - w.front.length →
      Emits p erasesize start (makeRoom p erasesize (turns + 1)) w w := by
    intro w turns hlt hroom
    refine ⟨List.prefix_rfl, fun s hs => ?_⟩
    have hlen := hs.length_front
    rw [makeRoom, rbytes, ← hlen, Nat.mod_eq_of_lt hlt, if_pos hroom]
    exact .ok hs
  unfold Output.roomy
  split
  next hroom => exact hself hlt hroom
  next hroom =>
    have hbegun : (w.next erasesize).front.length = 12 := rfl
    have hnext : Emits p erasesize start
        (fun s => nextBlock p erasesize s >>= makeRoom p erasesize 1) w (w.next erasesize) :=
      (nextBlock_emits hpos (Nat.le_of_lt hlt) (by omega)).bind (hself (by omega) (by omega))
    refine ⟨hnext.blocks, fun s hs => ?_⟩
    have hlen := hs.length_front
    rw [makeRoom, rbytes, ← hlen, Nat.mod_eq_of_lt hlt, if_neg hroom]
    exact hnext.leaves s hs

/-- Up to the filling behind the data. -/
theorem putNode_emits (hfit : w.front.length + 68 + data.length ≤ erasesize) :
    Emits p erasesize start
      (fun s => putInode p erasesize st ino isize offset data s >>= addData p erasesize data) w
      (w.withInode st ino isize offset data) := by
  refine (putInode_emits (by omega)).bind (addData_emits ?_)
  rw [List.length_append, length_rawInode]
  exact hfit

theorem length_withInode : (w.withInode st ino isize offset data).front.length =
    w.front.length + 68 + data.length := by
  rw [Output.withInode, List.length_append, List.length_append, length_rawInode]

theorem addNode_emits (hE : 12 ≤ erasesize)
    (hfit : w.front.length + 68 + data.length ≤ erasesize)
    (hend : align (w.front.length + 68 + data.length) ≤ erasesize ∨
      w.front.length + 68 + data.length = erasesize) :
    Emits p erasesize start (addNode p erasesize st ino isize offset data) w
      ((w.withInode st ino isize offset data).settled erasesize) := by
  have hlen : (w.withInode st ino isize offset data).front.length = _ := length_withInode
  have hsettle : Emits p erasesize start (fun s => pad p erasesize 4 s >>= prepEraseblock erasesize)
      (w.withInode st ino isize offset data) _ :=
    settle_emits hE (by omega) (by rwa [hlen])
  have hops := (putNode_emits hfit).bind hsettle
  refine ⟨hops.blocks, fun s hs => ?_⟩
  rw [addNode, bind_assoc]
  exact hops.leaves s hs

/-- The number of bytes that the next node takes. -/
def Output.space (erasesize : ℕ) (w : Output) : ℕ := min (erasesize - w.front.length - 68) 4096

theorem readLen_eq (hs : At p erasesize start w s) (hlt : w.front.length < erasesize) :
    readLen erasesize s = w.space erasesize := by
  rw [readLen, rbytes, ← hs.length_front, Nat.mod_eq_of_lt hlt, Output.space]

/-- The room for a node that is made at the start of a turn. -/
theorem roomy_front (hE : 208 < erasesize) (hpos : 0 < w.front.length) :
    0 < (w.roomy erasesize).front.length ∧
      (w.roomy erasesize).front.length + 196 < erasesize := by
  unfold Output.roomy
  split
  next hroom => omega
  next =>
    show 0 < 12 ∧ 12 + 196 < erasesize
    omega

/-- A turn of the loop that does not end it. -/
theorem addNodes_succ (hE : 208 < erasesize) (hpos : 0 < w.front.length)
    (hlt : w.front.length < erasesize) (hs : At p erasesize start w s) (hrest : rest ≠ []) :
    addNodes p erasesize st ino isize (turns + 1) offset rest s =
      makeRoom p erasesize 2 s >>=
        addNode p erasesize st ino isize offset (rest.take ((w.roomy erasesize).space erasesize)) >>=
        addNodes p erasesize st ino isize turns
          (offset + (rest.take ((w.roomy erasesize).space erasesize)).length)
          (rest.drop (rest.take ((w.roomy erasesize).space erasesize)).length) := by
  obtain ⟨-, hroom⟩ := roomy_front hE hpos
  have hmake : Emits p erasesize start (makeRoom p erasesize 2) w _ := makeRoom_emits hE hpos hlt
  have hleft := hmake.leaves s hs
  rw [addNodes]
  generalize makeRoom p erasesize 2 s = r at hleft ⊢
  cases hleft with
  | exit => rfl
  | ok ht =>
    have hlen : (rest.take ((w.roomy erasesize).space erasesize)).length ≠ 0 := by
      have hpos := List.length_pos_of_ne_nil hrest
      rw [List.length_take, Output.space]
      omega
    have hread := readLen_eq ht (by omega)
    rw [ok_bind, ok_bind, hread]
    exact if_neg hlen

/-- The turn that ends the loop. -/
theorem addNodes_nil (hE : 208 < erasesize) (hpos : 0 < w.front.length)
    (hlt : w.front.length < erasesize) :
    Emits p erasesize start (addNodes p erasesize st ino isize (turns + 1) offset []) w
      (w.roomy erasesize) := by
  have hmake : Emits p erasesize start (makeRoom p erasesize 2) w _ := makeRoom_emits hE hpos hlt
  refine ⟨hmake.blocks, fun s hs => ?_⟩
  have hleft := hmake.leaves s hs
  rw [addNodes]
  generalize makeRoom p erasesize 2 s = r at hleft ⊢
  cases hleft with
  | exit hlog hlt => exact .exit hlog hlt
  | ok ht =>
    simp only [ok_bind, List.take_nil, List.length_nil, if_true]
    exact .ok ht

/-- The rest of the block and the block with the end marker. -/
def Output.finished (erasesize : ℕ) (w : Output) : Output :=
  ({ w.flushed erasesize with front := jffs2Eof } : Output).flushed erasesize

theorem finish_emits (hE : 4 ≤ erasesize) (hpos : 0 < w.front.length)
    (hle : w.front.length ≤ erasesize) :
    Emits p erasesize start (fun s => pad p erasesize erasesize s >>= addData p erasesize jffs2Eof >>=
      pad p erasesize erasesize) w (w.finished erasesize) := by
  have hadd : Emits p erasesize start (addData p erasesize jffs2Eof) (w.flushed erasesize)
      { w.flushed erasesize with front := jffs2Eof } := addData_emits hE
  have hpad : Emits p erasesize start (pad p erasesize erasesize)
      { w.flushed erasesize with front := jffs2Eof } _ :=
    pad_erasesize_emits (Nat.zero_lt_succ 3) hE
  exact ((pad_erasesize_emits hpos hle).bind hadd).bind hpad

end

end Iot7688.Jffs2.Append
