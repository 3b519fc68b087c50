import Iot7688.Jffs2Nodes

/-!
The blocks that mtd_replace_jffs2 leaves on the partition. They are the blocks of the
file and one with the end marker, as far as there are good ones, and the nodes in them
can be told from their bytes. So the log is well formed exactly when the file is not
empty, the last node leaves the next one a place, its block is still to be had, and the
version numbers do not start again.
-/
namespace Iot7688.Jffs2.Append

open Lib Mtd

section

variable {p : Part} {erasesize start : ℕ} {blocks tail : List (List Byte)}

theorem mem_goodFrom {k : ℕ} (h : k ∈ goodFrom p start) :
    start ≤ k ∧ k < p.blocks ∧ p.marked k = false := by
  obtain ⟨hrange, hgood⟩ := List.mem_filter.mp h
  obtain ⟨hlow, hhigh⟩ := List.mem_range'_1.mp hrange
  exact ⟨hlow, by omega, by simpa using hgood⟩

theorem mem_placed {b : ℕ × List Byte} (h : b ∈ placed p erasesize start blocks) :
    ∃ k, b.1 = k * erasesize ∧ start ≤ k ∧ k < p.blocks ∧ p.marked k = false := by
  obtain ⟨k, hk, heq⟩ := List.mem_map.mp (List.of_mem_zip (show (b.1, b.2) ∈ _ from h)).1
  exact ⟨k, heq.symm, mem_goodFrom hk⟩

theorem map_fst_zip_take {α β : Type*} (as : List α) (bs : List β) :
    (as.zip bs).map Prod.fst = as.take bs.length := by
  induction as generalizing bs with
  | nil => rw [List.zip_nil_left, List.map_nil, List.take_nil]
  | cons a as ih =>
    cases bs with
    | nil => rfl
    | cons b bs => exact congrArg (a :: ·) (ih bs)

theorem map_snd_zip_take {α β : Type*} (as : List α) (bs : List β) :
    (as.zip bs).map Prod.snd = bs.take as.length := by
  induction as generalizing bs with
  | nil => rfl
  | cons a as ih =>
    cases bs with
    | nil => rfl
    | cons b bs => exact congrArg (b :: ·) (ih bs)

theorem placed_increasing (hE : 0 < erasesize) :
    (placed p erasesize start blocks).Pairwise fun b b' => b.1 < b'.1 := by
  have hgood : (goodFrom p start).Pairwise (· < ·) := List.Pairwise.filter _ List.pairwise_lt_range'
  have hplaces : ((goodFrom p start).map (· * erasesize)).Pairwise (· < ·) :=
    hgood.map _ fun i j hij => Nat.mul_lt_mul_of_pos_right hij hE
  have hfirst : ((placed p erasesize start blocks).map Prod.fst).Pairwise (· < ·) :=
    hplaces.sublist (by
      rw [placed, map_fst_zip_take]
      exact List.take_sublist _ _)
  exact List.pairwise_map.mp hfirst

theorem placed_blocks : (placed p erasesize start blocks).map Prod.snd =
    blocks.take (goodFrom p start).length := by
  rw [placed, map_snd_zip_take, List.length_map]

/-- A block of the file and the block behind differ in their first bytes. -/
theorem not_eof_of_marker {block : List Byte} (h : cleanmarker <+: block) : ¬jffs2Eof <+: block := by
  rintro ⟨rest, rfl⟩
  obtain ⟨rest', heq⟩ := h
  exact absurd (List.cons.inj heq).1 (by decide)

theorem fileBlock_unique {block : List Byte} {nodes nodes' : List (List Byte)}
    (h : FileBlock erasesize block nodes) (h' : FileBlock erasesize block nodes') : nodes = nodes' :=
  h.nodes.unique delimited_nodeOk h'.nodes

theorem marker_of_forall₂ {nodes : List (List (List Byte))}
    (h : List.Forall₂ (FileBlock erasesize) blocks nodes) : ∀ b ∈ blocks, cleanmarker <+: b := by
  induction h with
  | nil => exact fun b hb => absurd hb List.not_mem_nil
  | cons hblock _ ih => exact List.forall_mem_cons.mpr ⟨hblock.marker, ih⟩

theorem split_unique {α : Type*} {P : α → Prop} {front back front' back' : List α}
    (heq : front ++ back = front' ++ back') (hfront : ∀ a ∈ front, P a) (hback : ∀ a ∈ back, ¬P a)
    (hfront' : ∀ a ∈ front', P a) (hback' : ∀ a ∈ back', ¬P a) : front = front' := by
  classical
  have hfilter {front back : List α} (hfront : ∀ a ∈ front, P a) (hback : ∀ a ∈ back, ¬P a) :
      (front ++ back).filter (P ·) = front := by
    rw [List.filter_append, List.filter_eq_self.mpr (by simpa using hfront),
      List.filter_eq_nil_iff.mpr (by simpa using hback), List.append_nil]
  rw [← hfilter hfront hback, heq, hfilter hfront' hback']

/-- The nodes of a log are the ones in its blocks for the file. -/
theorem nodes_of_appended {name file dirent : List Byte} {count : ℕ}
    {nodes nodes' : List (List (List Byte))} {inodes : List (List Byte)}
    (hblocks : List.Forall₂ (FileBlock erasesize) blocks nodes) (htail : ∀ b ∈ tail, jffs2Eof <+: b)
    (h : AppendedAs p erasesize start name file (placed p erasesize start (blocks ++ tail)) count
      nodes' dirent inodes) : nodes' = nodes.take (goodFrom p start).length := by
  have hwhole : ((placed p erasesize start (blocks ++ tail)).take count).map Prod.snd ++
      ((placed p erasesize start (blocks ++ tail)).drop count).map Prod.snd =
      blocks.take (goodFrom p start).length ++
        tail.take ((goodFrom p start).length - blocks.length) := by
    rw [← List.map_append, List.take_append_drop, placed_blocks, List.take_append]
  have htake := List.forall₂_take (goodFrom p start).length hblocks
  have hsame := split_unique (P := fun b : List Byte => cleanmarker <+: b) hwhole
    (marker_of_forall₂ h.blocks) ?_ (marker_of_forall₂ htake) ?_
  · have hnodes := h.blocks
    rw [hsame] at hnodes
    have hunique : Relator.RightUnique (FileBlock erasesize) := fun _ _ _ hb hb' =>
      fileBlock_unique hb hb'
    exact List.right_unique_forall₂' hunique hnodes htake
  · intro block hmem hmarker
    obtain ⟨b, hb, heq⟩ := List.mem_map.mp hmem
    exact not_eof_of_marker hmarker (heq ▸ h.behind b hb)
  · exact fun b hb hmarker => not_eof_of_marker hmarker (htail b (List.mem_of_mem_take hb))

end

section

variable {st : Stat} {ino isize : ℕ}

/-- The version numbers of so many nodes, and when they do not start again. -/
def versionsOk (version count : ℕ) : Prop := incr version + count ≤ 2 ^ 32

theorem incr_lt (n : ℕ) : incr n < 2 ^ 32 := Nat.mod_lt _ (by decide)

theorem inodeNodes_data (offset version : ℕ) (pieces : List (List Byte)) :
    (inodeNodes st ino isize offset version pieces).flatMap (·.drop dataField) = pieces.flatten := by
  induction pieces generalizing offset version with
  | nil => rfl
  | cons piece pieces ih =>
    rw [inodeNodes, List.flatMap_cons, data_rawInode, ih, List.flatten_cons]

theorem inodeNodes_consecutive {offset version : ℕ} {pieces : List (List Byte)}
    (hlt : offset + pieces.flatten.length < 2 ^ 32) :
    Consecutive offset (inodeNodes st ino isize offset version pieces) := by
  induction pieces generalizing offset version with
  | nil => trivial
  | cons piece pieces ih =>
    rw [List.flatten_cons, List.length_append] at hlt
    rw [inodeNodes, Consecutive, offset_rawInode, data_rawInode, Nat.mod_eq_of_lt (by omega)]
    exact ⟨rfl, ih (by omega)⟩

theorem mem_inodeNodes {offset version : ℕ} {pieces : List (List Byte)} {node : List Byte}
    (hpieces : ∀ piece ∈ pieces, piece ≠ [] ∧ piece.length ≤ 4096)
    (h : node ∈ inodeNodes st ino isize offset version pieces) :
    InodeOk node ∧ field node inodeInoField 4 = ino % 2 ^ 32 ∧ node.drop dataField ≠ [] := by
  induction pieces generalizing offset version with
  | nil => cases h
  | cons piece pieces ih =>
    rw [List.forall_mem_cons] at hpieces
    rw [inodeNodes, List.mem_cons] at h
    obtain heq | h := h
    · have hlt : piece.length < 2 ^ 31 := hpieces.1.2.trans_lt (by decide)
      rw [heq, data_rawInode]
      exact ⟨inodeOk_rawInode hlt, ino_rawInode, hpieces.1.1⟩
    · exact ih hpieces.2 h

theorem length_inodeNodes (offset version : ℕ) (pieces : List (List Byte)) :
    (inodeNodes st ino isize offset version pieces).length = pieces.length := by
  induction pieces generalizing offset version with
  | nil => rfl
  | cons piece pieces ih => rw [inodeNodes, List.length_cons, List.length_cons, ih]

theorem versions_cons (offset version : ℕ) (piece : List Byte) (pieces : List (List Byte)) :
    (inodeNodes st ino isize offset version (piece :: pieces)).map (field · versionField 4) =
      incr version :: (inodeNodes st ino isize (offset + piece.length) (incr version) pieces).map
        (field · versionField 4) := by
  rw [inodeNodes, List.map_cons, version_rawInode, Nat.mod_eq_of_lt (incr_lt version)]

theorem inodeNodes_versions {offset version : ℕ} {pieces : List (List Byte)}
    (h : versionsOk version pieces.length) :
    (inodeNodes st ino isize offset version pieces).map (field · versionField 4) =
      List.range' (incr version) pieces.length := by
  induction pieces generalizing offset version with
  | nil => rfl
  | cons piece pieces ih =>
    unfold versionsOk at h ih
    rw [List.length_cons] at h
    rw [versions_cons, List.length_cons, List.range'_succ]
    cases pieces with
    | nil => rfl
    | cons next pieces =>
      rw [List.length_cons] at h
      have hnext : incr (incr version) = incr version + 1 := Nat.mod_eq_of_lt (by omega)
      rw [ih (by rw [hnext, List.length_cons]; omega), hnext]

/-- Numbers below a bound that increase. -/
theorem increasing_bound {a n : ℕ} {as : List ℕ} (h : (a :: as).Pairwise (· < ·))
    (hlt : ∀ b ∈ a :: as, b < n) : a + as.length < n := by
  induction as generalizing a with
  | nil => exact hlt a (List.mem_singleton.mpr rfl)
  | cons b as ih =>
    rw [List.pairwise_cons] at h
    have hrest := ih h.2 fun c hc => hlt c (List.mem_cons_of_mem a hc)
    have hnext := h.1 b List.mem_cons_self
    rw [List.length_cons]
    omega

theorem field_lt (bytes : List Byte) (off : ℕ) : field bytes off 4 < 2 ^ 32 := by
  have hlt := leValue_lt (Lib.segment bytes off 4)
  have hlen : (Lib.segment bytes off 4).length ≤ 4 := by
    rw [Lib.segment, List.length_take]
    exact Nat.min_le_left _ _
  exact hlt.trans_le (Nat.pow_le_pow_right (by decide) (Nat.mul_le_mul_left 8 hlen))

theorem versions_iff {offset version : ℕ} {pieces : List (List Byte)} (hne : pieces ≠ []) :
    ((inodeNodes st ino isize offset version pieces).map (field · versionField 4)).Pairwise (· < ·) ↔
      versionsOk version pieces.length := by
  constructor
  · intro h
    have hlt : ∀ v ∈ (inodeNodes st ino isize offset version pieces).map (field · versionField 4),
        v < 2 ^ 32 := by
      intro v hv
      obtain ⟨node, -, rfl⟩ := List.mem_map.mp hv
      exact field_lt node versionField
    obtain ⟨piece, pieces, rfl⟩ := List.exists_cons_of_ne_nil hne
    rw [versions_cons] at h hlt
    have hbound := increasing_bound h hlt
    rw [List.length_map, length_inodeNodes] at hbound
    unfold versionsOk
    rw [List.length_cons]
    omega
  · intro h
    rw [inodeNodes_versions h]
    exact List.pairwise_lt_range'

end

/-- The offset of the first inode. -/
def firstInode (name : List Byte) : ℕ := align (52 + name.length)

/-- When a run appends the whole file: there is a node, the last one leaves the next one a
place, its block is to be had, and the version numbers go on. -/
structure Fits (p : Part) (erasesize start : ℕ) (name file : List Byte) (lastVersion : ℕ) :
    Prop where
  nonempty : file ≠ []
  place : align (lastEnd erasesize (firstInode name) file.length) ≤ erasesize ∨
    lastEnd erasesize (firstInode name) file.length = erasesize
  block : lastBlock erasesize (firstInode name) file.length < (goodFrom p start).length
  versions : versionsOk (incr lastVersion) (nodeCount erasesize (firstInode name) file.length)

/-- The output behind the dirent. -/
def begun (erasesize : ℕ) (name : List Byte) (lastIno lastVersion : ℕ) : Output :=
  ((⟨[], cleanmarker, lastIno, lastVersion⟩ : Output).withDirent name 8 1).settled erasesize

section

variable {p : Part} {erasesize start : ℕ} {name file : List Byte} {lastIno lastVersion : ℕ}
  {w : Output} {full : List (List (List Byte))} {last : List (List Byte)}

theorem begun_eq (lastIno lastVersion : ℕ) (hE : 4096 < erasesize) (hname : name.length < 2 ^ 8) :
    begun erasesize name lastIno lastVersion =
      { (⟨[], cleanmarker, lastIno, lastVersion⟩ : Output).withDirent name 8 1 with
        front := cleanmarker ++ rawDirent (incr lastIno) 1 lastVersion 8 name ++
          List.replicate (firstInode name - (52 + name.length)) 0xff } := by
  have hlen : (cleanmarker ++ rawDirent (incr lastIno) 1 lastVersion 8 name).length =
      52 + name.length := by
    rw [List.length_append, length_rawDirent, ← Nat.add_assoc]
    rfl
  have hroom : ¬erasesize ≤ align (52 + name.length) := by
    unfold align
    omega
  rw [begun, Output.settled, Output.withDirent]
  dsimp only
  rw [hlen, if_neg hroom]
  rfl

theorem begun_front (lastIno lastVersion : ℕ) (hE : 4096 < erasesize) (hname : name.length < 2 ^ 8) :
    (begun erasesize name lastIno lastVersion).front.length = firstInode name := by
  have hmarker : cleanmarker.length = 12 := rfl
  rw [begun_eq lastIno lastVersion hE hname]
  simp only [List.length_append, length_rawDirent, List.length_replicate, hmarker]
  unfold firstInode align
  omega

theorem begun_holds (lastIno lastVersion : ℕ) (hE : 4096 < erasesize) (hname : name.length < 2 ^ 8) :
    Holds erasesize (begun erasesize name lastIno lastVersion) []
      [rawDirent (incr lastIno) 1 lastVersion 8 name] := by
  have hempty : Holds erasesize ⟨[], cleanmarker, lastIno, lastVersion⟩ [] [] :=
    ⟨.nil, List.prefix_rfl, .rest fun _ hb => (List.not_mem_nil hb).elim⟩
  have hdirent : Holds erasesize
      ((⟨[], cleanmarker, lastIno, lastVersion⟩ : Output).withDirent name 8 1) [] _ :=
    hempty.node ⟨3, rfl⟩ (.inl (direntOk_rawDirent hname)) rfl rfl
  rw [begun_eq lastIno lastVersion hE hname]
  exact hdirent.fill _

theorem settled_front (h : 12 ≤ w.front.length) (hE : 12 < erasesize) :
    0 < (w.settled erasesize).front.length ∧ (w.settled erasesize).front.length < erasesize := by
  unfold Output.settled
  split
  · exact ⟨Nat.zero_lt_succ 11, hE⟩
  next hlt =>
    simp only [List.length_append, List.length_replicate]
    unfold align at hlt ⊢
    omega

/-- The file blocks and the block with the end marker. -/
theorem Holds.finished (h : Holds erasesize w full last) (hle : w.front.length ≤ erasesize) :
    ∃ blocks tail, (w.finished erasesize).blocks = blocks ++ tail ∧
      List.Forall₂ (FileBlock erasesize) blocks (full ++ [last]) ∧ ∀ b ∈ tail, jffs2Eof <+: b := by
  refine ⟨_, [_], rfl, List.rel_append h.blocks (.cons (h.filled hle) .nil), fun b hb => ?_⟩
  rw [List.mem_singleton.mp hb]
  exact List.prefix_append _ _

variable {st : Stat} {s : St}

/-- add_file and what comes behind it. -/
def appended (p : Part) (erasesize : ℕ) (name : List Byte) (st : Stat) (file : List Byte) (s : St) :
    Except Stop St :=
  addFile p erasesize name st file 1 s >>= pad p erasesize erasesize >>=
    addData p erasesize jffs2Eof >>= pad p erasesize erasesize

/-- The node behind this one has a place. -/
def Output.Place (erasesize : ℕ) (w : Output) : Prop :=
  align w.front.length ≤ erasesize ∨ w.front.length = erasesize

theorem addDirent_begun (hE : 4096 < erasesize) (hlt : erasesize < 2 ^ 31)
    (hname : name.length < 2 ^ 8) : Emits p erasesize start (addDirent p erasesize name 8 1)
      ⟨[], [], lastIno, lastVersion⟩ (begun erasesize name lastIno lastVersion) :=
  addDirent_emits rfl (by omega) hlt

theorem begun_bounds (lastIno lastVersion : ℕ) (hE : 4096 < erasesize) (hname : name.length < 2 ^ 8) :
    4 ∣ (begun erasesize name lastIno lastVersion).front.length ∧
      0 < (begun erasesize name lastIno lastVersion).front.length ∧
      (begun erasesize name lastIno lastVersion).front.length < erasesize := by
  rw [begun_front lastIno lastVersion hE hname]
  unfold firstInode align
  omega

/-- Without any bytes there are no nodes. -/
theorem appended_nil (hE : 4096 < erasesize) (hlt : erasesize < 2 ^ 31) (hname : name.length < 2 ^ 8)
    (hs : At p erasesize start ⟨[], [], lastIno, lastVersion⟩ s) :
    Leaves p erasesize start
      (((begun erasesize name lastIno lastVersion).roomy erasesize).finished erasesize)
      (appended p erasesize name st [] s) := by
  obtain ⟨-, hpos, hin⟩ :=
    begun_bounds lastIno lastVersion hE hname
  obtain ⟨hpos', hin'⟩ := roomy_front (show 208 < erasesize by omega) hpos
  have hloop : Emits p erasesize start (addNodes p erasesize st (incr lastIno) 0 1 0 [])
      (begun erasesize name lastIno lastVersion) _ := addNodes_nil (by omega) hpos hin
  have hops := (addDirent_begun hE hlt hname).bind
    (hloop.bind (finish_emits (by omega) hpos' (by omega)))
  have hleft := hops.leaves s hs
  rw [appended, addFile, hs.lastIno]
  simpa only [bind_assoc, List.length_nil, Nat.zero_add] using hleft

/-- The nodes of a file are put, and what comes behind them succeeds if the next node has
a place. -/
theorem appended_some (st : Stat) (hE : 4096 < erasesize) (hlt : erasesize < 2 ^ 31)
    (hname : name.length < 2 ^ 8) (hne : file ≠ [])
    (hs : At p erasesize start ⟨[], [], lastIno, lastVersion⟩ s) :
    ∃ w full last pieces,
      Put erasesize st (incr lastIno) file.length 0 file (begun erasesize name lastIno lastVersion) []
        [rawDirent (incr lastIno) 1 lastVersion 8 name] w full last pieces ∧
      (w.Place erasesize → Leaves p erasesize start
        (((w.settled erasesize).roomy erasesize).finished erasesize)
        (appended p erasesize name st file s)) ∧
      (¬w.Place erasesize → Breaks p erasesize start w (appended p erasesize name st file s)) := by
  obtain ⟨hunit, hpos, hin⟩ := begun_bounds lastIno lastVersion hE hname
  obtain ⟨w, full, last, pieces, op, turns, offset, hput, hemits, hrun⟩ :=
    addNodes_run st (incr lastIno) file.length 0 p start (by omega) hne (Nat.lt_succ_self _)
      hunit hpos hin (begun_holds lastIno lastVersion hE hname)
  have hdirent : Emits p erasesize start (addDirent p erasesize name 8 1)
      ⟨[], [], lastIno, lastVersion⟩ _ := addDirent_begun hE hlt hname
  have hfront := hput.holds.front_length
  have hends := hput.ends
  have hrest : appended p erasesize name st file s =
      addDirent p erasesize name 8 1 s >>= op >>= pad p erasesize 4 >>= fun s =>
        prepEraseblock erasesize s >>= addNodes p erasesize st (incr lastIno) file.length (turns + 1)
          offset [] >>= fun s => pad p erasesize erasesize s >>= addData p erasesize jffs2Eof >>=
            pad p erasesize erasesize := by
    have hleft := hdirent.leaves s hs
    rw [appended, addFile, hs.lastIno]
    generalize addDirent p erasesize name 8 1 s = r at hleft ⊢
    cases hleft with
    | exit => rfl
    | ok hs' =>
      rw [ok_bind, ok_bind, hrun _ hs']
      simp only [bind_assoc]
  refine ⟨w, full, last, pieces, hput, fun hplace => ?_, fun hno => ?_⟩
  · obtain ⟨hpos', hin'⟩ := settled_front hfront (show 12 < erasesize by omega)
    obtain ⟨hpos'', hin''⟩ := roomy_front (show 208 < erasesize by omega) hpos'
    have hloop : Emits p erasesize start
        (addNodes p erasesize st (incr lastIno) file.length (turns + 1) offset [])
        (w.settled erasesize) _ := addNodes_nil (by omega) hpos' hin'
    have hops := ((hdirent.bind hemits).bind (settle_emits (by omega) (by omega) hplace)).bind
      (hloop.bind (finish_emits (by omega) hpos'' (by omega)))
    have hleft := hops.leaves s hs
    rw [hrest]
    simpa only [bind_assoc] using hleft
  · unfold Output.Place at hno
    have hpad : ∀ t, At p erasesize start w t → Breaks p erasesize start w (pad p erasesize 4 t) := by
      intro t ht
      rw [pad_four_outside ht (by omega) (by omega)]
      exact .outside
    rw [hrest]
    exact (((hdirent.bind hemits).leaves s hs).breaks hpad List.prefix_rfl).bind _

theorem begun_output (lastIno lastVersion : ℕ) (hE : 4096 < erasesize) (hname : name.length < 2 ^ 8) :
    (begun erasesize name lastIno lastVersion).blocks = [] ∧
      (begun erasesize name lastIno lastVersion).lastVersion = incr lastVersion := by
  rw [begun_eq lastIno lastVersion hE hname]
  exact ⟨rfl, rfl⟩

theorem writtenLog_leaves {r : Except Stop St} (h : Leaves p erasesize start w r) :
    writtenLog r = some (placed p erasesize start w.blocks) := by
  cases h with
  | ok hs => exact congrArg some hs.log
  | exit hlog _ => exact congrArg some hlog

theorem writtenLog_breaks {r : Except Stop St} (h : Breaks p erasesize start w r)
    {log : List (ℕ × List Byte)} (hlog : writtenLog r = some log) :
    log = placed p erasesize start w.blocks ∧ (goodFrom p start).length < w.blocks.length := by
  cases h with
  | outside => cases hlog
  | exit heq hlt => exact ⟨(Option.some.inj hlog).symm.trans heq, hlt⟩

/-- The blocks of the file, as far as there are good ones, are told from the others. -/
theorem appendedAs_of_blocks {blocks tail : List (List Byte)} {nodes : List (List (List Byte))}
    {dirent : List Byte} {inodes : List (List Byte)} (hE : 0 < erasesize)
    (hblocks : List.Forall₂ (FileBlock erasesize) blocks nodes) (htail : ∀ b ∈ tail, jffs2Eof <+: b)
    (hflat : (nodes.take (goodFrom p start).length).flatten = dirent :: inodes)
    (hentry : Entry name file dirent inodes) :
    AppendedAs p erasesize start name file (placed p erasesize start (blocks ++ tail))
      (blocks.take (goodFrom p start).length).length (nodes.take (goodFrom p start).length) dirent
      inodes := by
  have hwhole : (placed p erasesize start (blocks ++ tail)).map Prod.snd =
      blocks.take (goodFrom p start).length ++
        tail.take ((goodFrom p start).length - blocks.length) := by
    rw [placed_blocks, List.take_append]
  refine ⟨fun b hb => mem_placed (List.mem_of_mem_take hb),
    (placed_increasing hE).sublist (List.take_sublist _ _), ?_, fun b hb => ?_, hflat, hentry⟩
  · rw [List.map_take, hwhole, List.take_left]
    exact List.forall₂_take _ hblocks
  · have hmem := List.mem_map_of_mem (f := Prod.snd) hb
    rw [List.map_drop, hwhole, List.drop_left] at hmem
    exact htail _ (List.mem_of_mem_take hmem)

theorem entry_iff {pieces : List (List Byte)} {isize version : ℕ} (hname : name.length < 2 ^ 8)
    (hwhole : pieces.flatten = file) (hne : pieces ≠ [])
    (hpieces : ∀ piece ∈ pieces, piece ≠ [] ∧ piece.length ≤ 4096) (hlt : file.length < 2 ^ 32) :
    Entry name file (rawDirent (incr lastIno) 1 lastVersion 8 name)
      (inodeNodes st (incr lastIno) isize 0 version pieces) ↔ versionsOk version pieces.length := by
  refine ⟨fun h => (versions_iff hne).mp h.versions, fun h => ?_⟩
  refine ⟨direntOk_rawDirent hname, name_rawDirent, ?_, fun node hnode => (mem_inodeNodes hpieces hnode).1,
    fun node hnode => ?_, ?_, (versions_iff hne).mpr h, (inodeNodes_data 0 version pieces).trans hwhole⟩
  · rw [← List.length_pos_iff, length_inodeNodes]
    exact List.length_pos_of_ne_nil hne
  · rw [(mem_inodeNodes hpieces hnode).2.1, ino_rawDirent]
  · refine inodeNodes_consecutive ?_
    rw [hwhole]
    omega

variable {full' : List (List (List Byte))} {last' : List (List Byte)} {g : ℕ}

/-- Blocks without nodes behind the others do not count. -/
theorem Rolled.take_le (h : Rolled full full' last last') (hg : g ≤ full.length) :
    (full' ++ [last']).take g = full.take g := by
  obtain ⟨k, hk⟩ := h
  rw [hk, List.append_assoc, List.take_append_of_le_length hg]

theorem Rolled.flatten_take (h : Rolled full full' last last') (hg : full.length < g) :
    ((full' ++ [last']).take g).flatten = full.flatten ++ last := by
  obtain ⟨k, hk⟩ := h
  have hlen : (full ++ [last]).length ≤ g := by
    rw [List.length_append]
    exact hg
  rw [hk, List.take_append, List.take_of_length_le hlen, List.take_replicate]
  simp

/-- Without the block of the last node some bytes of the file are missing. -/
theorem not_whole {ino isize offset : ℕ} {dirent dirent' : List Byte} {inodes pieces : List (List Byte)}
    {w₀ : Output} (hput : Put erasesize st ino isize offset file w₀ [] [dirent] w full last pieces)
    (hflat : (full.take g).flatten = dirent' :: inodes)
    (hdata : inodes.flatMap (·.drop dataField) = file) : False := by
  have hnodes := hput.nodes
  rw [← List.take_append_drop g full, List.flatten_append, hflat, List.append_assoc] at hnodes
  have hinodes : inodes ++ ((full.drop g).flatten ++ last) = inodeNodes st ino isize offset
      w₀.lastVersion pieces := (List.cons.inj hnodes).2
  have hmore := congrArg (List.flatMap (·.drop dataField)) hinodes
  rw [inodeNodes_data, hput.whole, List.flatMap_append, hdata] at hmore
  have hnone := List.append_right_eq_self.mp hmore
  obtain ⟨node, hnode⟩ := List.exists_mem_of_ne_nil last hput.nonempty
  have hmem : node ∈ inodeNodes st ino isize offset w₀.lastVersion pieces := by
    rw [← hinodes]
    exact List.mem_append_right _ (List.mem_append_right _ hnode)
  have hempty := List.flatMap_eq_nil_iff.mp hnone node (List.mem_append_right _ hnode)
  exact (mem_inodeNodes hput.piece hmem).2.2 hempty

/-- An empty file has no nodes. -/
theorem not_appends_nil (hE : 4096 < erasesize) (hlt : erasesize < 2 ^ 31)
    (hname : name.length < 2 ^ 8) (hs : At p erasesize start ⟨[], [], lastIno, lastVersion⟩ s) :
    ¬AppendsFile p erasesize start name [] (appended p erasesize name st [] s) := by
  rintro ⟨log, count, nodes, dirent, inodes, hlog, happ⟩
  obtain ⟨-, hpos, hin⟩ := begun_bounds lastIno lastVersion hE hname
  have hroom := (roomy_front (show 208 < erasesize by omega) hpos).2
  obtain ⟨full, last, hholds, hrolled⟩ :=
    (begun_holds lastIno lastVersion hE hname).roomy
      (Nat.le_of_lt hin)
  obtain ⟨blocks, tail, hblocks, hnodes, htail⟩ := hholds.finished (by omega)
  rw [writtenLog_leaves (appended_nil hE hlt hname hs), hblocks] at hlog
  obtain rfl := Option.some.inj hlog
  have htake := nodes_of_appended hnodes htail happ
  have hflat := happ.nodes
  rw [htake] at hflat
  have hlen := congrArg List.length hrolled.flatten
  have hsome := List.length_pos_of_ne_nil happ.entry.nonempty
  have hwhole := congrArg List.flatten (List.take_append_drop (goodFrom p start).length (full ++ [last]))
  rw [List.flatten_append, hflat, List.flatten_append] at hwhole
  have hlen' := congrArg List.length hwhole
  simp only [List.flatten_cons, List.flatten_nil, List.append_nil, List.nil_append, List.length_append,
    List.length_cons, List.length_nil] at hlen hlen'
  omega

/-- Where the run ends behind the end marker, the log is told from its nodes. -/
theorem appends_leaves {pieces : List (List Byte)} {w₀ : Output} {r : Except Stop St}
    (hE : 208 < erasesize) (hname : name.length < 2 ^ 8) (hsize : p.blocks * erasesize < 2 ^ 31)
    (hblock : w.blocks.length = lastBlock erasesize w₀.front.length file.length) (hne : pieces ≠ [])
    (hput : Put erasesize st (incr lastIno) file.length 0 file w₀ []
      [rawDirent (incr lastIno) 1 lastVersion 8 name] w full last pieces)
    (hr : Leaves p erasesize start (((w.settled erasesize).roomy erasesize).finished erasesize) r) :
    AppendsFile p erasesize start name file r ↔
      w.blocks.length < (goodFrom p start).length ∧ versionsOk w₀.lastVersion pieces.length := by
  have hfront := hput.holds.front_length
  have hfull : w.blocks.length = full.length := hput.holds.blocks.length_eq
  obtain ⟨hpos', hin'⟩ := settled_front hfront (show 12 < erasesize by omega)
  have hroom := (roomy_front hE hpos').2
  obtain ⟨full₁, last₁, hholds₁, hrolled₁⟩ := hput.holds.settled hput.ends
  obtain ⟨full₂, last₂, hholds₂, hrolled₂⟩ := hholds₁.roomy (Nat.le_of_lt hin')
  obtain ⟨blocks, tail, hblocks, hnodes, htail⟩ := hholds₂.finished (by omega)
  have hrolled := hrolled₁.trans hrolled₂
  have hlog := writtenLog_leaves hr
  have hall := hput.nodes
  rw [hblocks] at hlog
  rw [List.flatten_nil, List.nil_append] at hall
  constructor
  · rintro ⟨log, count, nodes, dirent, inodes, hlog', happ⟩
    obtain rfl := Option.some.inj (hlog.symm.trans hlog')
    have htake := nodes_of_appended hnodes htail happ
    have hflat := happ.nodes
    rw [htake] at hflat
    have hlt : full.length < (goodFrom p start).length := by
      by_contra hge
      rw [hrolled.take_le (Nat.not_lt.mp hge)] at hflat
      exact not_whole hput hflat happ.entry.data
    rw [hrolled.flatten_take hlt, hall] at hflat
    obtain ⟨rfl, rfl⟩ := List.cons.inj hflat
    exact ⟨by omega, (versions_iff hne).mp happ.entry.versions⟩
  · rintro ⟨hlt, hversions⟩
    have hbytes : file.length < 2 ^ 32 := by
      have hgood : (goodFrom p start).length ≤ p.blocks := by
        have hlen := List.length_filter_le (fun k => !p.marked k) (List.range' start (p.blocks - start))
        rw [List.length_range'] at hlen
        unfold goodFrom
        omega
      have hle := size_le hE (hblock ▸ hlt.trans_le hgood)
      omega
    have hentry : Entry name file (rawDirent (incr lastIno) 1 lastVersion 8 name)
        (inodeNodes st (incr lastIno) file.length 0 w₀.lastVersion pieces) :=
      (entry_iff hname hput.whole hne hput.piece hbytes).mpr hversions
    have hflat : ((full₂ ++ [last₂]).take (goodFrom p start).length).flatten = _ :=
      (hrolled.flatten_take (by omega)).trans hall
    exact ⟨_, _, _, _, _, hlog, appendedAs_of_blocks (by omega) hnodes htail hflat hentry⟩

/-- A write outside of the buffer leaves no log, or one that ends before the last node. -/
theorem not_appends_breaks {pieces : List (List Byte)} {w₀ : Output} {r : Except Stop St} {ino : ℕ}
    {dirent : List Byte}
    (hput : Put erasesize st ino file.length 0 file w₀ [] [dirent] w full last pieces)
    (hr : Breaks p erasesize start w r) : ¬AppendsFile p erasesize start name file r := by
  rintro ⟨log, count, nodes, dirent', inodes, hlog, happ⟩
  obtain ⟨rfl, hlt⟩ := writtenLog_breaks hr hlog
  have hfull : w.blocks.length = full.length := hput.holds.blocks.length_eq
  rw [← List.append_nil w.blocks] at happ
  have htake := nodes_of_appended hput.holds.blocks (fun b hb => absurd hb List.not_mem_nil) happ
  have hflat := happ.nodes
  rw [htake] at hflat
  exact not_whole hput hflat happ.entry.data

theorem appended_iff (hE : 4096 < erasesize) (hlt : erasesize < 2 ^ 31) (hname : name.length < 2 ^ 8)
    (hsize : p.blocks * erasesize < 2 ^ 31)
    (hs : At p erasesize start ⟨[], [], lastIno, lastVersion⟩ s) :
    AppendsFile p erasesize start name file (appended p erasesize name st file s) ↔
      Fits p erasesize start name file lastVersion := by
  by_cases hne : file = []
  · subst hne
    exact iff_of_false (not_appends_nil hE hlt hname hs) fun h => h.nonempty rfl
  obtain ⟨w, full, last, pieces, hput, hleaves, hbreaks⟩ :=
    appended_some st hE hlt hname hne hs
  have hfront := begun_front lastIno lastVersion hE hname
  obtain ⟨hnone, hversion⟩ :=
    begun_output lastIno lastVersion hE hname
  have hofs := hput.ofs
  have hblock := hput.block
  have hcount := hput.count
  have hpieces : pieces ≠ [] := fun h => hne (hput.whole.symm.trans (by rw [h]; rfl))
  rw [hnone, List.length_nil, Nat.zero_add] at hblock
  by_cases hplace : w.Place erasesize
  · rw [appends_leaves (by omega) hname hsize hblock hpieces hput (hleaves hplace), hblock,
      hversion, hcount, hfront]
    rw [Output.Place, hofs, hfront] at hplace
    exact ⟨fun h => ⟨hne, hplace, h.1, h.2⟩, fun h => ⟨h.block, h.versions⟩⟩
  · refine iff_of_false (not_appends_breaks hput (hbreaks hplace)) fun h => hplace ?_
    rw [Output.Place, hofs, hfront]
    exact h.place

end

/-- mtd_replace_jffs2 appends a well-formed log of the whole file exactly when the file is
not empty, all its nodes have a place in good blocks, and the version numbers go on. -/
theorem appends_iff (p : Part) {erasesize : ℕ} (start : ℕ) {name : List Byte} (st : Stat)
    (file : List Byte) {buf : List Byte} (lastIno lastVersion : ℕ) (hE : 4096 < erasesize)
    (hlt : erasesize < 2 ^ 31) (hname : name.length < 2 ^ 8)
    (hsize : p.blocks * erasesize < 2 ^ 31) (hbuf : buf.length = erasesize) :
    AppendsFile p erasesize start name file (mtdReplaceJffs2 p erasesize name st file
      (fresh buf (start * erasesize) lastIno lastVersion)) ↔
      Fits p erasesize start name file lastVersion := by
  have hs : At p erasesize start ⟨[], [], if lastIno = 0 then 1 else lastIno, lastVersion⟩
      { fresh buf (start * erasesize) lastIno lastVersion with
        lastIno := if lastIno = 0 then 1 else lastIno } :=
    ⟨hbuf, Nat.zero_le _, rfl, rfl, rfl, ⟨start, rfl, rfl⟩, (List.zip_nil_right ..).symm⟩
  exact appended_iff hE hlt hname hsize hs

/-- Four blocks of NAND flash, the second one of them bad. -/
def fourBlocks : Part where
  opens := true
  nand := true
  blocks := 4
  bad k := k == 1
  eraseOk _ := true
  writeOk _ := true

def someStat : Stat := ⟨0o100644, 0, 0, 0⟩

theorem appends_iff_four : AppendsFile fourBlocks 8192 0 [0x61] [0x62] (mtdReplaceJffs2 fourBlocks 8192
      [0x61] someStat [0x62] (fresh (List.replicate 8192 0) (0 * 8192) 1 0)) ↔
    Fits fourBlocks 8192 0 [0x61] [0x62] 0 :=
  appends_iff fourBlocks 0 someStat [0x62] 1 0 (by decide) (by decide) (by decide) (by decide)
    List.length_replicate

/-- For an empty file there is only the dirent. -/
theorem empty_file_without_inode : ¬AppendsFile fourBlocks 8192 0 [0x61] [] (mtdReplaceJffs2 fourBlocks
    8192 [0x61] someStat [] (fresh (List.replicate 8192 0) (0 * 8192) 1 0)) :=
  not_appends_nil (by decide) (by decide) (by decide)
    ⟨List.length_replicate, Nat.zero_le _, rfl, rfl, rfl, ⟨0, rfl, rfl⟩, (List.zip_nil_right ..).symm⟩

end Iot7688.Jffs2.Append
