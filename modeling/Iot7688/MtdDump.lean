import Iot7688.Lib.Blocks
import Iot7688.Lib.Patch
import Iot7688.MtdWrite

/-!
mtd_dump: the blocks of a partition that are not bad, from an offset on. The distance
walked is counted from 0 on and not from the offset, and it is the one whose block is
looked up. With less than a block to go, only so many bytes of a bad block are passed.
-/
namespace Iot7688.Mtd

open Lib

variable {α : Type}

structure DumpSt (α : Type) where
  size : ℕ
  pos : ℕ
  offset : ℕ
  out : List α

inductive DumpNext (α : Type)
  | again (s : DumpSt α)
  | exit (s : DumpSt α)
  | done (s : DumpSt α)

/-- The length of the next read. -/
def dumpLen (erasesize : ℕ) (s : DumpSt α) : ℕ := if s.size > erasesize then erasesize else s.size

/-- The turn of the loop behind a read of the whole length. -/
def dumpBlock (s : DumpSt α) (buf : List α) (bad : Bool) : DumpNext α :=
  let t : DumpSt α :=
    { size := if bad then s.size else s.size - buf.length
      pos := s.pos + buf.length
      offset := s.offset + buf.length
      out := if bad then s.out else s.out ++ buf }
  if t.size > 0 then .again t else .done t

/-- One turn of the loop. A read delivers what the device has up to its end. -/
def dumpTurn (p : Part) (erasesize : ℕ) (device : List α) (s : DumpSt α) : DumpNext α :=
  let buf := segment device s.pos (dumpLen erasesize s)
  if buf.length = 0 ∨ buf.length ≠ dumpLen erasesize s then .done s
  else
    match mtdBlockIsBad p (s.offset / erasesize) with
    | none => .exit s
    | some bad => dumpBlock s buf bad

/-- Execution, for a number of turns: whether it returns, with 0, or exits. -/
def dumpRun (p : Part) (erasesize : ℕ) (device : List α) : ℕ → DumpSt α → Option (Bool × DumpSt α)
  | 0, _ => none
  | fuel + 1, s =>
      match dumpTurn p erasesize device s with
      | .again s => dumpRun p erasesize device fuel s
      | .exit s => some (false, s)
      | .done s => some (true, s)

/-- The state before the loop: a size of 0 stands for all, and lseek does not move behind
the end of the device. -/
def dumpStart (device : List α) (partOffset size : ℕ) : DumpSt α where
  size := if size = 0 then device.length else size
  pos := if partOffset ≤ device.length then partOffset else 0
  offset := 0
  out := []

/-- mtd_dump on an open partition, with more turns than there are bytes. -/
def mtdDump (p : Part) (erasesize : ℕ) (device : List α) (partOffset size : ℕ) :
    Option (Bool × DumpSt α) :=
  dumpRun p erasesize device (device.length + 1) (dumpStart device partOffset size)

/-- The block is marked as bad; only NAND flash has such marks. -/
def Part.marked (p : Part) (block : ℕ) : Bool := p.nand && p.bad block

/-- The bytes of the good blocks from the offset on. -/
def goodBytes (p : Part) (erasesize : ℕ) (contents : List Byte) (partOffset : ℕ) : List Byte :=
  (unmarked erasesize p.marked (partOffset / erasesize) (p.blocks - partOffset / erasesize)).filterMap
    (contents[·]?)

/-- The size that is wanted, 0 for all of the device. -/
def wanted (p : Part) (erasesize size : ℕ) : ℕ := if size = 0 then p.blocks * erasesize else size

/-- Whatever the device holds, 0 is returned and the first bytes of the good blocks are
output, as many as there are of the wanted ones. -/
def DumpsRight (p : Part) (erasesize partOffset size : ℕ) : Prop :=
  ∀ contents : List Byte, contents.length = p.blocks * erasesize →
    ∃ s, mtdDump p erasesize contents partOffset size = some (true, s) ∧
      s.out = (goodBytes p erasesize contents partOffset).take (wanted p erasesize size)

/-- The mark that is looked up for a block: that of the block as far from the first one as
this one is from the offset. -/
def lookedUp (p : Part) (start block : ℕ) : Bool := p.marked (block - start)

/-- No read of the given length from a block on is output: at every one that the device
still has in full a bad block is looked up. -/
def NothingOutput (p : Part) (erasesize start block len : ℕ) : Prop :=
  ∀ j, block * erasesize + (j + 1) * len ≤ p.blocks * erasesize →
    lookedUp p start ((block * erasesize + j * len) / erasesize) = true

/-- The last bytes, fewer than a block, come from the start of the next good block: it is
looked up as good, the bad ones in front of it as bad, and reads of this length end at
its start. Or there is no good block, and nothing is output. -/
def TailRight (p : Part) (erasesize start block len : ℕ) : Prop :=
  (∃ last, block ≤ last ∧ last < p.blocks ∧ p.marked last = false ∧ lookedUp p start last = false ∧
    (∀ i, block ≤ i → i < last → p.marked i = true ∧ lookedUp p start i = true) ∧
    len ∣ (last - block) * erasesize) ∨
  (∀ i, block ≤ i → i < p.blocks → p.marked i = true) ∧ NothingOutput p erasesize start block len

/-- From a block up to the last whole one that is wanted the marks looked up are those of
the blocks read, and the bytes behind it are right. -/
def MarksAgree (p : Part) (erasesize start block size : ℕ) : Prop :=
  let last := walked p.marked block (p.blocks - block) (size / erasesize)
  (∀ i, block ≤ i → i < last → lookedUp p start i = p.marked i) ∧
    (size % erasesize = 0 ∨ TailRight p erasesize start last (size % erasesize))

/-- With an offset behind the device nothing is to be output, but it is read from its start. -/
def DumpCond (p : Part) (erasesize partOffset size : ℕ) : Prop :=
  if partOffset ≤ p.blocks * erasesize then
    MarksAgree p erasesize (partOffset / erasesize) (partOffset / erasesize) (wanted p erasesize size)
  else p.blocks = 0 ∨ NothingOutput p erasesize 0 0 (min (wanted p erasesize size) erasesize)

section

variable {β : Type} {p : Part} {erasesize : ℕ}

/-- A dump of other entries. -/
def DumpSt.map (f : α → β) (s : DumpSt α) : DumpSt β :=
  { size := s.size, pos := s.pos, offset := s.offset, out := s.out.map f }

def DumpNext.map (f : α → β) : DumpNext α → DumpNext β
  | .again s => .again (s.map f)
  | .exit s => .exit (s.map f)
  | .done s => .done (s.map f)

theorem segment_map (f : α → β) (l : List α) (off n : ℕ) :
    segment (l.map f) off n = (segment l off n).map f := by
  rw [Lib.segment, Lib.segment, List.map_take, List.map_drop]

theorem dumpBlock_map (f : α → β) (s : DumpSt α) (buf : List α) (bad : Bool) :
    dumpBlock (s.map f) (buf.map f) bad = (dumpBlock s buf bad).map f := by
  unfold dumpBlock DumpSt.map
  simp only [List.length_map]
  cases bad
  · simp only [Bool.false_eq_true, if_false]
    split <;> simp only [DumpNext.map, DumpSt.map, List.map_append]
  · simp only [if_true]
    split <;> rfl

/-- The dump does not look at the entries. -/
theorem dumpTurn_map (f : α → β) (device : List α) (s : DumpSt α) :
    dumpTurn p erasesize (device.map f) (s.map f) = (dumpTurn p erasesize device s).map f := by
  have hlen : dumpLen erasesize (s.map f) = dumpLen erasesize s := rfl
  have hpos : (s.map f).pos = s.pos := rfl
  have hoffset : (s.map f).offset = s.offset := rfl
  unfold dumpTurn
  rw [hlen, hpos, hoffset, segment_map]
  simp only [List.length_map]
  split
  · rfl
  · cases mtdBlockIsBad p (s.offset / erasesize) with
    | none => rfl
    | some bad => exact dumpBlock_map f s _ bad

theorem dumpRun_map (f : α → β) (device : List α) (fuel : ℕ) (s : DumpSt α) :
    dumpRun p erasesize (device.map f) fuel (s.map f) =
      (dumpRun p erasesize device fuel s).map (Prod.map id (DumpSt.map f)) := by
  induction fuel generalizing s with
  | zero => rfl
  | succ fuel ih =>
    rw [dumpRun, dumpRun, dumpTurn_map]
    cases dumpTurn p erasesize device s with
    | again t => exact ih t
    | exit t => rfl
    | done t => rfl

theorem mtdDump_map (f : α → β) (device : List α) (partOffset size : ℕ) :
    mtdDump p erasesize (device.map f) partOffset size =
      (mtdDump p erasesize device partOffset size).map (Prod.map id (DumpSt.map f)) := by
  have hstart : dumpStart (device.map f) partOffset size =
      (dumpStart device partOffset size).map f := by
    unfold dumpStart DumpSt.map
    rw [List.length_map]
    rfl
  rw [mtdDump, hstart, List.length_map]
  exact dumpRun_map f device _ _

end

section

variable {p : Part} {erasesize start size : ℕ} {s : DumpSt ℕ}

theorem segment_range {size off n : ℕ} (h : off + n ≤ size) :
    segment (List.range size) off n = List.range' off n := by
  apply List.ext_getElem?
  intro i
  rw [getElem?_segment]
  by_cases hi : i < n
  · rw [if_pos hi, List.getElem?_range (by omega), List.getElem?_range' hi, Nat.one_mul]
  · rw [if_neg hi, List.getElem?_eq_none (by rw [List.length_range']; omega)]

/-- The device of all places, and the place of the next read counted from the offset. -/
structure DumpInv (erasesize start : ℕ) (s : DumpSt ℕ) : Prop where
  pos : s.pos = start * erasesize + s.offset
  size : 0 < s.size

theorem DumpInv.dumpLen_pos (h : DumpInv erasesize start s) (hE : 0 < erasesize) :
    0 < dumpLen erasesize s := by
  have hsize := h.size
  unfold dumpLen
  split <;> omega

theorem dumpTurn_short (h : p.blocks * erasesize < s.pos + dumpLen erasesize s) :
    dumpTurn p erasesize (List.range (p.blocks * erasesize)) s = .done s := by
  have hlen : (segment (List.range (p.blocks * erasesize)) s.pos (dumpLen erasesize s)).length =
      min (dumpLen erasesize s) (p.blocks * erasesize - s.pos) := by
    rw [Lib.segment, List.length_take, List.length_drop, List.length_range]
  unfold dumpTurn
  exact if_pos (by omega)

theorem dumpTurn_full (hE : 0 < erasesize) (h : DumpInv erasesize start s)
    (hfull : s.pos + dumpLen erasesize s ≤ p.blocks * erasesize) :
    dumpTurn p erasesize (List.range (p.blocks * erasesize)) s =
      dumpBlock s (List.range' s.pos (dumpLen erasesize s)) (lookedUp p start (s.pos / erasesize)) := by
  have hlen := h.dumpLen_pos hE
  have hblock : s.pos / erasesize < p.blocks := (Nat.div_lt_iff_lt_mul hE).mpr (by omega)
  have hshift : s.pos / erasesize - start = s.offset / erasesize := by
    rw [h.pos, Nat.mul_comm, Nat.mul_add_div hE, Nat.add_sub_cancel_left]
  have hinside : s.offset / erasesize < p.blocks := by
    rw [← hshift]
    exact lt_of_le_of_lt (Nat.sub_le _ _) hblock
  have hbad : mtdBlockIsBad p (s.offset / erasesize) =
      some (lookedUp p start (s.pos / erasesize)) := by
    unfold mtdBlockIsBad lookedUp Part.marked
    rw [hshift]
    cases p.nand
    · rfl
    · rw [if_pos rfl, if_pos hinside, Bool.true_and]
  unfold dumpTurn
  rw [segment_range hfull, hbad]
  exact if_neg (by rw [List.length_range']; omega)

/-- The next state when a read is passed over. -/
def DumpSt.skip (s : DumpSt ℕ) (len : ℕ) : DumpSt ℕ :=
  { s with pos := s.pos + len, offset := s.offset + len }

/-- The next state when a read is output. -/
def DumpSt.take (s : DumpSt ℕ) (len : ℕ) : DumpSt ℕ :=
  { s with
    size := s.size - len, pos := s.pos + len, offset := s.offset + len
    out := s.out ++ List.range' s.pos len }

theorem DumpSt.skip_skip (s : DumpSt ℕ) (len len' : ℕ) :
    (s.skip len).skip len' = s.skip (len + len') := by
  unfold DumpSt.skip
  rw [Nat.add_assoc, Nat.add_assoc]

theorem DumpInv.skip (h : DumpInv erasesize start s) (len : ℕ) :
    DumpInv erasesize start (s.skip len) :=
  ⟨by have := h.pos; simp only [DumpSt.skip]; omega, h.size⟩

theorem DumpInv.take (h : DumpInv erasesize start s) {len : ℕ} (hlen : len < s.size) :
    DumpInv erasesize start (s.take len) :=
  ⟨by have := h.pos; simp only [DumpSt.take]; omega, by simp only [DumpSt.take]; omega⟩

/-- What the loop does at a read: it ends, passes over it, or outputs it. -/
theorem dumpRun_cases (hE : 0 < erasesize) (h : DumpInv erasesize start s) (fuel : ℕ) :
    let run := dumpRun p erasesize (List.range (p.blocks * erasesize))
    let len := dumpLen erasesize s
    p.blocks * erasesize < s.pos + len ∧ run (fuel + 1) s = some (true, s) ∨
    s.pos + len ≤ p.blocks * erasesize ∧ lookedUp p start (s.pos / erasesize) = true ∧
      run (fuel + 1) s = run fuel (s.skip len) ∨
    s.pos + len ≤ p.blocks * erasesize ∧ lookedUp p start (s.pos / erasesize) = false ∧
      run (fuel + 1) s = if len < s.size then run fuel (s.take len) else some (true, s.take len) := by
  intro run len
  by_cases hfull : s.pos + len ≤ p.blocks * erasesize
  swap
  · refine Or.inl ⟨by omega, ?_⟩
    unfold run
    rw [dumpRun, dumpTurn_short (by omega)]
  refine Or.inr ?_
  have hsize := h.size
  have hturn := dumpTurn_full hE h hfull
  cases hbad : lookedUp p start (s.pos / erasesize) with
  | true =>
    refine Or.inl ⟨hfull, rfl, ?_⟩
    unfold run
    rw [dumpRun, hturn, hbad]
    unfold dumpBlock
    simp only [if_true, List.length_range', gt_iff_lt, if_pos hsize]
    rfl
  | false =>
    refine Or.inr ⟨hfull, rfl, ?_⟩
    unfold run
    rw [dumpRun, hturn, hbad]
    unfold dumpBlock len
    simp only [Bool.false_eq_true, if_false, List.length_range', gt_iff_lt, Nat.sub_pos_iff_lt]
    by_cases hmore : dumpLen erasesize s < s.size
    · simp only [if_pos hmore]
      rfl
    · simp only [if_neg hmore]
      rfl

/-- The loop from a state on, up to its next output: there is none, or it is the first read
at which a good block is looked up. -/
theorem dump_scan (hE : 0 < erasesize) {fuel : ℕ} (h : DumpInv erasesize start s)
    (hfuel : p.blocks * erasesize - s.pos < fuel) {len : ℕ} (hlen : dumpLen erasesize s = len) :
    let run := dumpRun p erasesize (List.range (p.blocks * erasesize))
    ((∀ j, s.pos + (j + 1) * len ≤ p.blocks * erasesize →
        lookedUp p start ((s.pos + j * len) / erasesize) = true) ∧
      ∃ t, run fuel s = some (true, t) ∧ t.out = s.out) ∨
    ∃ j fuel', s.pos + (j + 1) * len ≤ p.blocks * erasesize ∧
      lookedUp p start ((s.pos + j * len) / erasesize) = false ∧
      (∀ i, i < j → lookedUp p start ((s.pos + i * len) / erasesize) = true) ∧
      p.blocks * erasesize - (s.pos + (j + 1) * len) < fuel' ∧
      run fuel s = if len < s.size then run fuel' ((s.skip (j * len)).take len)
        else some (true, (s.skip (j * len)).take len) := by
  intro run
  induction fuel generalizing s with
  | zero => omega
  | succ fuel ih =>
    have hpos : 0 < len := hlen ▸ h.dumpLen_pos hE
    have hshift (j : ℕ) : s.pos + (j + 1) * len = s.pos + len + j * len := by
      rw [Nat.succ_mul]
      omega
    rcases dumpRun_cases hE h fuel with ⟨hshort, hrun⟩ | ⟨hfull, hbad, hrun⟩ | ⟨hfull, hgood, hrun⟩
    · refine Or.inl ⟨fun j hj => ?_, s, hrun, rfl⟩
      have hle : len ≤ (j + 1) * len := Nat.le_mul_of_pos_left len (Nat.succ_pos j)
      omega
    · rw [hlen] at hfull hrun
      have hskip : (s.skip len).pos = s.pos + len := rfl
      rcases ih (h.skip len) (by rw [hskip]; omega) hlen with
        ⟨hnone, t, ht, hout⟩ | ⟨j, fuel', hj, hgood, hbefore, hfuel', hnext⟩
      · refine Or.inl ⟨fun j hj => ?_, t, hrun.trans ht, hout⟩
        cases j with
        | zero => rwa [Nat.zero_mul]
        | succ j =>
          rw [hshift]
          exact hnone j (by rw [hskip, ← hshift]; exact hj)
      · rw [hskip] at hj hgood hbefore hfuel'
        refine Or.inr ⟨j + 1, fuel', by rw [hshift]; exact hj, by rw [hshift]; exact hgood, ?_,
          by rw [hshift]; exact hfuel', ?_⟩
        · intro i hi
          cases i with
          | zero => rwa [Nat.zero_mul]
          | succ i =>
            rw [hshift]
            exact hbefore i (by omega)
        · rw [DumpSt.skip_skip, Nat.add_comm len, ← Nat.succ_mul] at hnext
          exact hrun.trans hnext
    · rw [hlen] at hfull hrun
      refine Or.inr ⟨0, fuel, by rw [Nat.zero_add, Nat.one_mul]; exact hfull,
        by rwa [Nat.zero_mul], fun i hi => absurd hi (Nat.not_lt_zero i), ?_, ?_⟩
      · rw [Nat.zero_add, Nat.one_mul]
        omega
      · rw [Nat.zero_mul]
        exact hrun

/-- Reads shorter than a block start in every block. -/
theorem read_starts_in {block i len : ℕ} (hi : block ≤ i) (hpos : 0 < len) :
    ∃ j, i * erasesize ≤ block * erasesize + j * len ∧
      block * erasesize + j * len < i * erasesize + len := by
  obtain ⟨d, rfl⟩ := Nat.exists_eq_add_of_le hi
  have hdiv := Nat.div_add_mod (d * erasesize + len - 1) len
  have hmod := Nat.mod_lt (d * erasesize + len - 1) hpos
  refine ⟨(d * erasesize + len - 1) / len, ?_, ?_⟩ <;>
  · rw [Nat.add_mul, Nat.mul_comm _ len]
    omega

theorem div_of_bounds {x i : ℕ} (hle : i * erasesize ≤ x)
    (hlt : x < i * erasesize + erasesize) : x / erasesize = i := by
  apply Nat.div_eq_of_lt_le hle
  rwa [Nat.succ_mul]

/-- Where a read of the last bytes starts, it is the right one exactly when the marks
looked up and the bad blocks in front of it let the reads end there. -/
theorem tailRight_of_read (hE : 0 < erasesize) {block last len j : ℕ} (hpos : 0 < len)
    (hlen : len < erasesize) (hblock : block ≤ last) (hlast : last < p.blocks)
    (hfree : p.marked last = false) (hbefore : ∀ i, block ≤ i → i < last → p.marked i = true)
    (hgood : lookedUp p start ((block * erasesize + j * len) / erasesize) = false)
    (hskipped : ∀ i, i < j →
      lookedUp p start ((block * erasesize + i * len) / erasesize) = true) :
    block * erasesize + j * len = last * erasesize ↔ TailRight p erasesize start block len := by
  have hsub : (last - block) * erasesize + block * erasesize = last * erasesize := by
    rw [← Nat.add_mul, Nat.sub_add_cancel hblock]
  constructor
  · intro hj
    refine Or.inl ⟨last, hblock, hlast, hfree, ?_, fun i hi hlt => ⟨hbefore i hi hlt, ?_⟩,
      j, by rw [Nat.mul_comm len]; omega⟩
    · rwa [hj, Nat.mul_div_cancel _ hE] at hgood
    · obtain ⟨j', hle, hj'⟩ := @read_starts_in erasesize block i len hi hpos
      have hmul : (i + 1) * erasesize ≤ last * erasesize := Nat.mul_le_mul_right _ hlt
      rw [Nat.succ_mul] at hmul
      have hless : j' * len < j * len := by omega
      have hthere := hskipped j' (Nat.lt_of_mul_lt_mul_right hless)
      rwa [div_of_bounds hle (by omega)] at hthere
  · rintro (⟨last', hle, hlt, hfree', hlooked, hbefore', j', hj'⟩ | ⟨hall, _⟩)
    · have hsame : last' = last := by
        rcases Nat.lt_trichotomy last' last with h | h | h
        · rw [hbefore last' hle h] at hfree'
          cases hfree'
        · exact h
        · rw [(hbefore' last hblock h).1] at hfree
          cases hfree
      subst hsame
      have hplace : block * erasesize + j' * len = last' * erasesize := by
        rw [Nat.mul_comm j']
        omega
      rcases Nat.lt_trichotomy j j' with h | h | h
      · have hmul : j * len < j' * len := Nat.mul_lt_mul_of_pos_right h hpos
        have hin : (block * erasesize + j * len) / erasesize < last' :=
          (Nat.div_lt_iff_lt_mul hE).mpr (by omega)
        have hfrom : block ≤ (block * erasesize + j * len) / erasesize :=
          (Nat.le_div_iff_mul_le hE).mpr (Nat.le_add_right _ _)
        rw [(hbefore' _ hfrom hin).2] at hgood
        cases hgood
      · rw [h, hplace]
      · have hthere := hskipped j' h
        rw [hplace, Nat.mul_div_cancel _ hE, hlooked] at hthere
        cases hthere
    · rw [hall last hblock hlast] at hfree
      cases hfree

theorem dumpLen_of_le (h : s.size ≤ erasesize) : dumpLen erasesize s = s.size :=
  if_neg (by omega)

theorem dumpLen_of_ge (h : erasesize ≤ s.size) : dumpLen erasesize s = erasesize := by
  unfold dumpLen
  split <;> omega

/-- The end of the dump: fewer bytes than a block are left to be output. -/
theorem dump_tail (hE : 0 < erasesize) {fuel block : ℕ} (h : DumpInv erasesize start s)
    (hpos : s.pos = block * erasesize) (hblock : block ≤ p.blocks)
    (hfuel : p.blocks * erasesize - s.pos < fuel) (hsize : s.size < erasesize) :
    ∃ places t, dumpRun p erasesize (List.range (p.blocks * erasesize)) fuel s = some (true, t) ∧
      t.out = s.out ++ places ∧
      (places = (unmarked erasesize p.marked block (p.blocks - block)).take s.size ↔
        TailRight p erasesize start block s.size) := by
  have hwhole : block + (p.blocks - block) = p.blocks := by omega
  have hmarks := all_marked_or_first p.marked block (p.blocks - block)
  have hfirst := @take_unmarked erasesize p.marked block (p.blocks - block)
  have hnone := @unmarked_of_marked erasesize p.marked block (p.blocks - block)
  rw [hwhole] at hmarks hnone
  simp only [hwhole] at hfirst
  have hsome (x : ℕ) : List.range' x s.size ≠ [] := by
    rw [ne_eq, List.range'_eq_nil_iff]
    exact h.size.ne'
  rcases dump_scan hE h hfuel (dumpLen_of_le hsize.le) with
    ⟨hskipped, t, hrun, hout⟩ | ⟨j, fuel', hj, hgood, hskipped, _, hrun⟩
  · refine ⟨[], t, hrun, by rw [hout, List.append_nil], ?_⟩
    rw [hpos] at hskipped
    rcases hmarks with hall | ⟨last, hle, hlt, hfree, hbefore⟩
    · exact iff_of_true (by rw [hnone hall, List.take_nil]) (Or.inr ⟨hall, hskipped⟩)
    · rw [hfirst hsize.le hle hlt hfree hbefore]
      refine iff_of_false (hsome _).symm ?_
      rintro (⟨last', hle', hlt', _, hlooked, _, j, hj⟩ | ⟨hall, _⟩)
      · have hsub : (last' - block) * erasesize + block * erasesize = last' * erasesize := by
          rw [← Nat.add_mul, Nat.sub_add_cancel hle']
        have hend : (last' + 1) * erasesize ≤ p.blocks * erasesize := Nat.mul_le_mul_right _ hlt'
        rw [Nat.mul_comm s.size] at hj
        have hplace : block * erasesize + j * s.size = last' * erasesize := by omega
        have hthere := hskipped j (by rw [Nat.succ_mul] at hend ⊢; omega)
        rw [hplace, Nat.mul_div_cancel _ hE, hlooked] at hthere
        cases hthere
      · rw [hall last hle hlt] at hfree
        cases hfree
  · rw [if_neg (lt_irrefl _)] at hrun
    refine ⟨List.range' (s.pos + j * s.size) s.size, _, hrun, rfl, ?_⟩
    rw [hpos] at hgood hskipped hj
    rcases hmarks with hall | ⟨last, hle, hlt, hfree, hbefore⟩
    · rw [hnone hall, List.take_nil]
      refine iff_of_false (hsome _) ?_
      rintro (⟨last, hle, hlt, hfree, _⟩ | ⟨_, hnothing⟩)
      · rw [hall last hle hlt] at hfree
        cases hfree
      · rw [hnothing j hj] at hgood
        cases hgood
    · rw [hfirst hsize.le hle hlt hfree hbefore, List.range'_inj, hpos]
      simp only [h.size.ne', true_and, false_or]
      exact tailRight_of_read hE h.size hsize hle hlt hfree hbefore hgood hskipped

/-- All that is output comes from behind the place of the next read. -/
theorem dump_places (hE : 0 < erasesize) {fuel : ℕ} (h : DumpInv erasesize start s) {t : DumpSt ℕ}
    (hrun : dumpRun p erasesize (List.range (p.blocks * erasesize)) fuel s = some (true, t)) :
    ∃ places, t.out = s.out ++ places ∧ ∀ x ∈ places, s.pos ≤ x := by
  induction fuel generalizing s with
  | zero => cases hrun
  | succ fuel ih =>
    have hdone {s' : DumpSt ℕ} (hs' : some (true, s') = some (true, t)) : s' = t := by
      injection hs' with hs'
      exact congrArg Prod.snd hs'
    rcases dumpRun_cases hE h fuel with ⟨_, hnext⟩ | ⟨_, _, hnext⟩ | ⟨_, _, hnext⟩
    · obtain rfl := hdone (hnext.symm.trans hrun)
      exact ⟨[], (List.append_nil _).symm, fun x hx => absurd hx List.not_mem_nil⟩
    · obtain ⟨places, hout, hplaces⟩ := ih (h.skip _) (hnext.symm.trans hrun)
      exact ⟨places, hout, fun x hx => le_trans (Nat.le_add_right _ _) (hplaces x hx)⟩
    · have hfirst : ∀ x ∈ List.range' s.pos (dumpLen erasesize s), s.pos ≤ x := fun x hx =>
        (List.mem_range'_1.mp hx).1
      have hnext := hnext.symm.trans hrun
      split at hnext
      · next hmore =>
        obtain ⟨places, hout, hplaces⟩ := ih (h.take hmore) hnext
        refine ⟨_ ++ places, hout.trans (List.append_assoc _ _ _), fun x hx => ?_⟩
        rcases List.mem_append.mp hx with hx | hx
        · exact hfirst x hx
        · exact le_trans (Nat.le_add_right _ _) (hplaces x hx)
      · obtain rfl := hdone hnext
        exact ⟨_, rfl, hfirst⟩

/-- Nothing is output exactly when a bad block is looked up at every read. -/
theorem dump_empty_iff (hE : 0 < erasesize) {fuel : ℕ} (h : DumpInv erasesize start s)
    (hfuel : p.blocks * erasesize - s.pos < fuel) {len : ℕ} (hlen : dumpLen erasesize s = len)
    {t : DumpSt ℕ}
    (hrun : dumpRun p erasesize (List.range (p.blocks * erasesize)) fuel s = some (true, t)) :
    t.out = s.out ↔ ∀ j, s.pos + (j + 1) * len ≤ p.blocks * erasesize →
      lookedUp p start ((s.pos + j * len) / erasesize) = true := by
  rcases dump_scan hE h hfuel hlen with
    ⟨hskipped, t', hrun', hout⟩ | ⟨j, fuel', hj, hgood, _, _, hrun'⟩
  · have hsame : t' = t := congrArg Prod.snd (Option.some_inj.mp (hrun'.symm.trans hrun))
    exact iff_of_true (hsame ▸ hout) hskipped
  · have hpos : 0 < len := by
      have := h.size
      rw [← hlen]
      unfold dumpLen
      split <;> omega
    have hrun' := hrun'.symm.trans hrun
    have hmore : ∃ places, t.out = (s.skip (j * len)).out ++ (List.range' (s.pos + j * len) len ++ places) := by
      split at hrun'
      · next hmore =>
        obtain ⟨places, hout, _⟩ := dump_places hE ((h.skip (j * len)).take hmore) hrun'
        exact ⟨places, hout.trans (List.append_assoc _ _ _)⟩
      · have hsame : _ = t := congrArg Prod.snd (Option.some_inj.mp hrun')
        refine ⟨[], ?_⟩
        rw [List.append_nil, ← hsame]
        rfl
    obtain ⟨places, hout⟩ := hmore
    refine iff_of_false (fun hsame => ?_) fun hnothing => by
      rw [hnothing j hj] at hgood
      cases hgood
    have hlength := congrArg List.length (hout.symm.trans hsame)
    rw [List.length_append, List.length_append, List.length_range'] at hlength
    have hskip : (s.skip (j * len)).out = s.out := rfl
    rw [hskip] at hlength
    omega

theorem marksAgree_zero (p : Part) (erasesize start block : ℕ) :
    MarksAgree p erasesize start block 0 := by
  have hwalked : walked p.marked block (p.blocks - block) (0 / erasesize) = block := by
    rw [Nat.zero_div]
    cases p.blocks - block <;> rfl
  refine ⟨fun i hi hlt => ?_, Or.inl (Nat.zero_mod _)⟩
  rw [hwalked] at hlt
  omega

/-- Behind the last block there is nothing left to be right. -/
theorem marksAgree_end {block : ℕ} (hblock : p.blocks ≤ block) (size : ℕ) :
    MarksAgree p erasesize start block size := by
  have hwalked : walked p.marked block (p.blocks - block) (size / erasesize) = block := by
    rw [Nat.sub_eq_zero_of_le hblock]
    rfl
  unfold MarksAgree
  rw [hwalked]
  refine ⟨fun i hi hlt => by omega, ?_⟩
  by_cases hzero : size % erasesize = 0
  · exact Or.inl hzero
  · refine Or.inr (Or.inr ⟨fun i hi hlt => by omega, fun j hj => ?_⟩)
    have hend : p.blocks * erasesize ≤ block * erasesize := Nat.mul_le_mul_right _ hblock
    have hpos : 0 < (j + 1) * (size % erasesize) := Nat.mul_pos (Nat.succ_pos j) (by omega)
    omega

/-- The condition for one more block, while a whole block is wanted. -/
theorem marksAgree_step (hE : 0 < erasesize) {block : ℕ} (hblock : block < p.blocks)
    (hsize : erasesize ≤ size) :
    MarksAgree p erasesize start block size ↔ lookedUp p start block = p.marked block ∧
      MarksAgree p erasesize start (block + 1)
        (if p.marked block then size else size - erasesize) := by
  have hleft : p.blocks - block = p.blocks - (block + 1) + 1 := by omega
  have hdiv : size / erasesize = (size - erasesize) / erasesize + 1 := Nat.div_eq_sub_div hE hsize
  have hmod : size % erasesize = (size - erasesize) % erasesize := Nat.mod_eq_sub_mod hsize
  have hwhole : (if p.marked block then size else size - erasesize) / erasesize =
      if p.marked block then (size - erasesize) / erasesize + 1
      else (size - erasesize) / erasesize := by
    split
    · exact hdiv
    · rfl
  have hrest : (if p.marked block then size else size - erasesize) % erasesize =
      size % erasesize := by
    split
    · rfl
    · exact hmod.symm
  unfold MarksAgree
  rw [hleft, hdiv, walked, hwhole, hrest]
  generalize hlast : walked p.marked (block + 1) (p.blocks - (block + 1))
    (if p.marked block then (size - erasesize) / erasesize + 1
      else (size - erasesize) / erasesize) = last
  have hle : block + 1 ≤ last := by
    rw [← hlast]
    exact le_walked _ _ _
  dsimp only
  constructor
  · rintro ⟨hmarks, htail⟩
    exact ⟨hmarks block le_rfl (by omega), fun i hi hlt => hmarks i (by omega) hlt, htail⟩
  · rintro ⟨hfirst, hmarks, htail⟩
    refine ⟨fun i hi hlt => ?_, htail⟩
    rcases Nat.eq_or_lt_of_le hi with rfl | hlt'
    · exact hfirst
    · exact hmarks i hlt' hlt

/-- Fewer bytes than a block are wanted. -/
theorem marksAgree_tail {block : ℕ} (hpos : 0 < size) (hsize : size < erasesize) :
    MarksAgree p erasesize start block size ↔ TailRight p erasesize start block size := by
  have hwalked : walked p.marked block (p.blocks - block) 0 = block := by
    cases p.blocks - block <;> rfl
  unfold MarksAgree
  rw [Nat.div_eq_of_lt hsize, Nat.mod_eq_of_lt hsize, hwalked]
  constructor
  · rintro ⟨_, hzero | htail⟩
    · omega
    · exact htail
  · exact fun htail => ⟨fun i hi hlt => by omega, Or.inr htail⟩

/-- The first places wanted of a block and the ones behind it. -/
theorem take_unmarked_cons {block : ℕ} (hblock : block < p.blocks) (hsize : erasesize ≤ size) :
    (unmarked erasesize p.marked block (p.blocks - block)).take size =
      if p.marked block then
        (unmarked erasesize p.marked (block + 1) (p.blocks - (block + 1))).take size
      else List.range' (block * erasesize) erasesize ++
        (unmarked erasesize p.marked (block + 1) (p.blocks - (block + 1))).take (size - erasesize) := by
  have hleft : p.blocks - block = p.blocks - (block + 1) + 1 := by omega
  rw [hleft, unmarked]
  split
  · rw [List.nil_append]
  · rw [List.take_append, List.take_range'_of_length_le hsize, List.length_range']

/-- Places that lie behind a block do not start with it. -/
theorem ne_of_behind (hE : 0 < erasesize) {block : ℕ} {front behind : List ℕ}
    (h : ∀ x ∈ behind, (block + 1) * erasesize ≤ x) :
    behind ≠ List.range' (block * erasesize) erasesize ++ front := by
  rintro rfl
  have hfirst := h (block * erasesize)
    (List.mem_append_left _ (List.mem_range'_1.mpr ⟨le_rfl, by omega⟩))
  rw [Nat.succ_mul] at hfirst
  omega

/-- The dump from the start of a block on is right exactly when the marks agree. -/
theorem dump_blocks (hE : 0 < erasesize) {fuel block : ℕ} (h : DumpInv erasesize start s)
    (hpos : s.pos = block * erasesize) (hblock : block ≤ p.blocks)
    (hfuel : p.blocks * erasesize - s.pos < fuel) :
    ∃ places t, dumpRun p erasesize (List.range (p.blocks * erasesize)) fuel s = some (true, t) ∧
      t.out = s.out ++ places ∧
      (places = (unmarked erasesize p.marked block (p.blocks - block)).take s.size ↔
        MarksAgree p erasesize start block s.size) := by
  induction hleft : p.blocks - block generalizing block fuel s with
  | zero =>
    have hlen := h.dumpLen_pos hE
    have hsame : block = p.blocks := by omega
    obtain ⟨fuel, rfl⟩ : ∃ n, fuel = n + 1 := ⟨fuel - 1, by omega⟩
    refine ⟨[], s, ?_, (List.append_nil _).symm, iff_of_true List.take_nil.symm ?_⟩
    · rw [dumpRun, dumpTurn_short (by rw [hpos, hsame]; omega)]
    · exact marksAgree_end hsame.ge _
  | succ left ih =>
    rw [← hleft]
    have hinside : block < p.blocks := by omega
    by_cases hsize : s.size < erasesize
    · rw [marksAgree_tail h.size hsize]
      exact dump_tail hE h hpos hblock hfuel hsize
    have hge : erasesize ≤ s.size := by omega
    have hlen := dumpLen_of_ge hge
    have hend : (block + 1) * erasesize ≤ p.blocks * erasesize := Nat.mul_le_mul_right _ hinside
    have hnext : s.pos + erasesize = (block + 1) * erasesize := by rw [hpos, Nat.succ_mul]
    have hplace : s.pos / erasesize = block := by rw [hpos, Nat.mul_div_cancel _ hE]
    have hrest : p.blocks - (block + 1) = left := by omega
    have hbehind (n : ℕ) : ∀ x ∈ (unmarked erasesize p.marked (block + 1) left).take n,
        (block + 1) * erasesize ≤ x := fun x hx => (unmarked_bounds (List.mem_of_mem_take hx)).1
    rw [take_unmarked_cons hinside hge, marksAgree_step hE hinside hge, hrest]
    obtain ⟨fuel, rfl⟩ : ∃ n, fuel = n + 1 := ⟨fuel - 1, by omega⟩
    have hcases := @dumpRun_cases p erasesize start s hE h fuel
    rw [hlen, hplace] at hcases
    rcases hcases with ⟨hshort, _⟩ | ⟨_, hbad, hrun⟩ | ⟨_, hgood, hrun⟩
    · omega
    · obtain ⟨places, t, ht, hout, hiff⟩ := ih (h.skip erasesize) hnext hinside
        (by change _ - (s.pos + erasesize) < fuel; omega) hrest
      refine ⟨places, t, hrun.trans ht, hout, ?_⟩
      rw [hbad]
      cases hmark : p.marked block with
      | true =>
        rw [if_pos rfl, if_pos rfl]
        exact hiff.trans ⟨fun h => ⟨rfl, h⟩, fun h => h.2⟩
      | false =>
        rw [if_neg Bool.false_ne_true]
        refine iff_of_false ?_ fun hagree => absurd hagree.1 (by decide)
        obtain ⟨places', hout', hplaces⟩ := dump_places hE (h.skip erasesize) ht
        obtain rfl := List.append_cancel_left (hout.symm.trans hout')
        refine ne_of_behind hE fun x hx => ?_
        rw [← hnext]
        exact hplaces x hx
    · rw [hgood]
      by_cases hmore : erasesize < s.size
      · rw [if_pos hmore] at hrun
        obtain ⟨places, t, ht, hout, hiff⟩ := ih (h.take hmore) hnext hinside
          (by change _ - (s.pos + erasesize) < fuel; omega) hrest
        refine ⟨List.range' s.pos erasesize ++ places, t, hrun.trans ht,
          hout.trans (List.append_assoc _ _ _), ?_⟩
        rw [hpos]
        cases hmark : p.marked block with
        | true =>
          rw [if_pos rfl]
          exact iff_of_false (ne_of_behind hE (hbehind _)).symm fun hagree => absurd hagree.1 (by decide)
        | false =>
          rw [if_neg Bool.false_ne_true, if_neg Bool.false_ne_true, List.append_cancel_left_eq]
          exact hiff.trans ⟨fun h => ⟨rfl, h⟩, fun h => h.2⟩
      · rw [if_neg hmore] at hrun
        have hall : s.size - erasesize = 0 := by omega
        refine ⟨List.range' s.pos erasesize, _, hrun, rfl, ?_⟩
        rw [hpos, hall]
        cases hmark : p.marked block with
        | true =>
          rw [if_pos rfl, ← List.append_nil (List.range' _ _)]
          exact iff_of_false (ne_of_behind hE (hbehind _)).symm fun hagree => absurd hagree.1 (by decide)
        | false =>
          rw [if_neg Bool.false_ne_true, if_neg Bool.false_ne_true, List.take_zero, List.append_nil]
          exact iff_of_true rfl ⟨rfl, marksAgree_zero p erasesize start _⟩

/-- The dump of the places. -/
theorem mtdDump_places (hE : 0 < erasesize) {partOffset : ℕ} (hoff : erasesize ∣ partOffset)
    (size : ℕ) :
    ∃ t, mtdDump p erasesize (List.range (p.blocks * erasesize)) partOffset size = some (true, t) ∧
      (t.out = (unmarked erasesize p.marked (partOffset / erasesize)
          (p.blocks - partOffset / erasesize)).take (wanted p erasesize size) ↔
        DumpCond p erasesize partOffset size) := by
  have hstart : partOffset / erasesize * erasesize = partOffset := Nat.div_mul_cancel hoff
  have hends (h : p.blocks ≤ partOffset / erasesize) : (unmarked erasesize p.marked
      (partOffset / erasesize) (p.blocks - partOffset / erasesize)).take (wanted p erasesize size) =
        [] := by
    rw [Nat.sub_eq_zero_of_le h]
    exact List.take_nil
  unfold mtdDump
  rw [List.length_range]
  by_cases hblocks : p.blocks = 0
  · refine ⟨dumpStart (List.range (p.blocks * erasesize)) partOffset size, ?_, ?_⟩
    · have hturn (s : DumpSt ℕ) :
          dumpTurn p erasesize (List.range (p.blocks * erasesize)) s = .done s := by
        unfold dumpTurn
        rw [hblocks, Nat.zero_mul]
        exact if_pos (Or.inl (by rw [List.range_zero, Lib.segment, List.drop_nil, List.take_nil]; rfl))
      rw [dumpRun, hturn]
    · refine iff_of_true (hends (by rw [hblocks]; exact Nat.zero_le _)).symm ?_
      unfold DumpCond
      split
      · exact marksAgree_end (by rw [hblocks]; exact Nat.zero_le _) _
      · exact Or.inl hblocks
  have hdevice : 0 < p.blocks * erasesize := Nat.mul_pos (by omega) hE
  have hwanted : 0 < wanted p erasesize size := by
    unfold wanted
    split <;> omega
  have hsize : (dumpStart (List.range (p.blocks * erasesize)) partOffset size).size =
      wanted p erasesize size := by
    unfold dumpStart wanted
    rw [List.length_range]
  unfold DumpCond
  by_cases hin : partOffset ≤ p.blocks * erasesize
  · have hpos : (dumpStart (List.range (p.blocks * erasesize)) partOffset size).pos = partOffset := by
      unfold dumpStart
      rw [List.length_range]
      exact if_pos hin
    obtain ⟨places, t, hrun, hout, hiff⟩ := @dump_blocks p erasesize (partOffset / erasesize)
      (dumpStart (List.range (p.blocks * erasesize)) partOffset size) hE
      (p.blocks * erasesize + 1) (partOffset / erasesize)
      ⟨by rw [hpos, hstart]; rfl, by rw [hsize]; exact hwanted⟩ (by rw [hpos, hstart])
      (by rwa [← Nat.mul_le_mul_right_iff hE, hstart]) (by omega)
    rw [hsize] at hiff
    rw [if_pos hin]
    exact ⟨t, hrun, by rw [hout]; exact hiff⟩
  · have hpos : (dumpStart (List.range (p.blocks * erasesize)) partOffset size).pos = 0 := by
      unfold dumpStart
      rw [List.length_range]
      exact if_neg hin
    have hinv : DumpInv erasesize 0
        (dumpStart (List.range (p.blocks * erasesize)) partOffset size) :=
      ⟨by rw [hpos, Nat.zero_mul]; rfl, by rw [hsize]; exact hwanted⟩
    have hlen : dumpLen erasesize (dumpStart (List.range (p.blocks * erasesize)) partOffset size) =
        min (wanted p erasesize size) erasesize := by
      unfold dumpLen
      rw [hsize]
      split <;> omega
    rw [if_neg hin, hends ((Nat.le_div_iff_mul_le hE).mpr (by omega)), or_iff_right hblocks]
    obtain ⟨_, t, hrun, _, _⟩ := @dump_blocks p erasesize 0 _ hE (p.blocks * erasesize + 1) 0 hinv
      (by rw [hpos, Nat.zero_mul]) (Nat.zero_le _) (by omega)
    refine ⟨t, hrun, ?_⟩
    have hempty := dump_empty_iff hE hinv (by omega) hlen hrun
    rw [hpos] at hempty
    unfold NothingOutput
    rw [Nat.zero_mul]
    exact hempty

end

section

variable {p : Part} {erasesize partOffset : ℕ}

/-- Places at which every device holds the same bytes are the same places. -/
theorem places_inj {size : ℕ} {places places' : List ℕ} (hin : ∀ x ∈ places', x < size)
    (h : ∀ contents : List Byte, contents.length = size →
      places.map (contents.getD · 0) = places'.map (contents.getD · 0)) : places = places' := by
  have hlength : places.length = places'.length := by
    have hmap := congrArg List.length (h (List.replicate size 0) List.length_replicate)
    rwa [List.length_map, List.length_map] at hmap
  apply List.ext_getElem hlength
  intro i hi hi'
  -- a device with a single byte set, at the place of the second list
  have hone := h ((List.range size).map fun x => if x = places'[i] then 1 else 0) (by simp)
  have hith := List.getElem_of_eq hone (by rwa [List.length_map])
  rw [List.getElem_map, List.getElem_map] at hith
  by_contra hne
  have hright : ((List.range size).map fun x => if x = places'[i] then (1 : Byte) else 0).getD
      places'[i] 0 = 1 := by
    rw [List.getD_eq_getElem?_getD, List.getElem?_map,
      List.getElem?_range (hin _ (List.getElem_mem hi')), Option.map_some, if_pos rfl]
    rfl
  have hleft : ((List.range size).map fun x => if x = places'[i] then (1 : Byte) else 0).getD
      places[i] 0 = 0 := by
    rw [List.getD_eq_getElem?_getD, List.getElem?_map]
    by_cases hlt : places[i] < size
    · rw [List.getElem?_range hlt, Option.map_some, if_neg hne]
      rfl
    · rw [List.getElem?_eq_none (by rw [List.length_range]; omega)]
      rfl
  rw [hright, hleft] at hith
  exact absurd hith (by decide)

theorem unmarked_lt {block x : ℕ} (hx : x ∈ unmarked erasesize p.marked block (p.blocks - block)) :
    x < p.blocks * erasesize := by
  have hlt := (unmarked_bounds hx).2
  by_cases hblock : block ≤ p.blocks
  · rwa [Nat.add_sub_cancel' hblock] at hlt
  · rw [Nat.sub_eq_zero_of_le (by omega)] at hx
    cases hx

theorem goodBytes_eq_map {contents : List Byte} (h : contents.length = p.blocks * erasesize) :
    goodBytes p erasesize contents partOffset =
      (unmarked erasesize p.marked (partOffset / erasesize)
        (p.blocks - partOffset / erasesize)).map (contents.getD · 0) := by
  have hsome : ∀ x ∈ unmarked erasesize p.marked (partOffset / erasesize)
      (p.blocks - partOffset / erasesize), contents[x]? = some (contents.getD x 0) := by
    intro x hx
    have hlt := unmarked_lt hx
    rw [List.getD_eq_getElem?_getD, List.getElem?_eq_getElem (by omega), Option.getD_some]
  exact List.filterMap_eq_map_iff_forall_eq_some.mpr hsome

/-- mtd_dump is right exactly when every mark that it looks up is that of the block read, and
what a bad block leaves of the last bytes starts where the next good one does. -/
theorem mtd_dump_iff (hE : 0 < erasesize) (hoff : erasesize ∣ partOffset) (size : ℕ) :
    DumpsRight p erasesize partOffset size ↔ DumpCond p erasesize partOffset size := by
  obtain ⟨t, hrun, hiff⟩ := @mtdDump_places p erasesize hE partOffset hoff size
  rw [← hiff]
  have hdump {contents : List Byte} (h : contents.length = p.blocks * erasesize) :
      mtdDump p erasesize contents partOffset size =
        some (true, t.map (contents.getD · 0)) := by
    have hplaces : (List.range (p.blocks * erasesize)).map (contents.getD · 0) = contents := by
      apply List.ext_getElem
      · rw [List.length_map, List.length_range, h]
      · intro i hi hi'
        rw [List.getElem_map, List.getElem_range, List.getD_eq_getElem?_getD,
          List.getElem?_eq_getElem hi', Option.getD_some]
    have hmap := @mtdDump_map _ _ p erasesize (contents.getD · 0)
      (List.range (p.blocks * erasesize)) partOffset size
    rw [hplaces, hrun] at hmap
    exact hmap
  constructor
  · intro hright
    refine @places_inj (p.blocks * erasesize) _ _
      (fun x hx => unmarked_lt (List.mem_of_mem_take hx)) fun contents h => ?_
    obtain ⟨s, hs, hout⟩ := hright contents h
    have hsame : _ = s := congrArg Prod.snd (Option.some_inj.mp ((hdump h).symm.trans hs))
    rw [← hsame, goodBytes_eq_map h, ← List.map_take] at hout
    exact hout
  · intro hout contents h
    refine ⟨_, hdump h, ?_⟩
    rw [goodBytes_eq_map h, ← List.map_take, ← hout]
    rfl

/-- A NAND partition of four blocks, the second one bad. -/
def secondBad : Part where
  opens := true
  nand := true
  blocks := 4
  bad b := decide (b = 1)
  eraseOk _ := true
  writeOk _ := true

/-- One byte is left for the bad block, which is passed byte by byte. -/
theorem mtd_dump_one_left : DumpsRight secondBad 4 0 5 := by
  refine (mtd_dump_iff (by decide) (by decide) 5).mpr ⟨fun i hi hlt => rfl, Or.inr (Or.inl ?_)⟩
  refine ⟨2, by decide, by decide, rfl, rfl, fun i hi hlt => ?_, Nat.one_dvd _⟩
  obtain rfl : i = 1 := by
    have hfrom : 1 ≤ i := hi
    omega
  exact ⟨rfl, rfl⟩

/-- Three bytes are left for the bad block: the reads of three go on into the third block,
and its last two bytes and the first one of the fourth are output. -/
theorem short_reads_misalign : ¬DumpsRight secondBad 4 0 7 := by
  intro h
  obtain ⟨s, hs, hout⟩ := h [0, 1, 2, 3, 4, 5, 6, 7, 8, 9, 10, 11, 12, 13, 14, 15] rfl
  have hrun : (mtdDump secondBad 4 [(0 : Byte), 1, 2, 3, 4, 5, 6, 7, 8, 9, 10, 11, 12, 13, 14, 15]
      0 7).map (fun r => r.2.out) = some [0, 1, 2, 3, 10, 11, 12] := by decide
  rw [hs, Option.map_some, hout] at hrun
  exact absurd hrun (by decide)

end

end Iot7688.Mtd
