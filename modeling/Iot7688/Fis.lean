import Iot7688.Lib.Memory
import Iot7688.Lib.Patch

/-!
The FIS directory: one erase block of slots, the entries up to the first slot whose
name starts with 0 or 0xff. fis_remap puts new entries in the place of old ones, from
the first to the last slot that has an old name; what lies between the two is replaced
as well, and freed slots are filled with a length that wraps. The flash ranges are laid out
from the lower base of the two slots on, and nothing compares them with the region.
-/
namespace Iot7688.Fis

open Lib

/-- struct fis_image_desc. -/
structure Desc where
  name : List Byte
  flashBase : ℕ
  memBase : ℕ
  size : ℕ
  entryPoint : ℕ
  dataLength : ℕ
  padding : List Byte
  crcDesc : ℕ
  crcFile : ℕ
deriving DecidableEq

/-- struct fis_part, without the offset, which nothing reads. -/
structure Part where
  name : List Byte
  loadaddr : ℕ
  size : ℕ
deriving DecidableEq

def nameSize : ℕ := 16
def paddingSize : ℕ := 212

/-- A slot of 0xff bytes. -/
def erased : Desc where
  name := List.replicate nameSize 0xff
  flashBase := 2 ^ 32 - 1
  memBase := 2 ^ 32 - 1
  size := 2 ^ 32 - 1
  entryPoint := 2 ^ 32 - 1
  dataLength := 2 ^ 32 - 1
  padding := List.replicate paddingSize 0xff
  crcDesc := 2 ^ 32 - 1
  crcFile := 2 ^ 32 - 1

/-- A name that ends the table. -/
def endMark (name : List Byte) : Bool := name.getD 0 0 == 0 || name.getD 0 0 == 0xff

/-- What strncmp looks at in a name of sixteen bytes. -/
def cname (name : List Byte) : List Byte := (name.take nameSize).takeWhile fun b => b ≠ 0

def isOld (old : List Part) (d : Desc) : Bool := old.any fun o => cname d.name == cname o.name

/-- The slots that the loops over the table go through. -/
def entries (table : List Desc) : List Desc := table.takeWhile fun d => !endMark d.name

def fisValidate (table : List Desc) (old new : List Part) : ℤ :=
  if new.dropLast.any fun p => p.size == 0 then -1
  else if (entries table).countP (isOld old) = old.length then 1 else -1

/-- The first loop of fis_remap: the slot, the highest base and the first and last slot
with an old name. -/
structure Look where
  slot : ℕ
  offset : ℕ
  first : Option ℕ
  last : Option ℕ

def look (old : List Part) (s : Look) (d : Desc) : Look where
  slot := s.slot + 1
  offset := if s.offset < d.flashBase then d.flashBase else s.offset
  first := if isOld old d && s.first.isNone then some s.slot else s.first
  last := if isOld old d then some s.slot else s.last

def lookTable (old : List Part) (table : List Desc) : Look :=
  (entries table).foldl (look old) ⟨0, 0, none, none⟩

/-- The second loop: the lowest base above the given one. -/
def nextBase (lastBase : ℕ) (table : List Desc) (offset : ℕ) : ℕ :=
  (entries table).foldl
    (fun offset d =>
      if d.flashBase > lastBase ∧ d.flashBase < offset then d.flashBase else offset) offset

/-- The last loop, with the running offset and size. -/
def newDescs : List Part → ℕ → ℕ → List Desc
  | [], _, _ => []
  | p :: parts, offset, size =>
      let given := if p.size > 0 then p.size else size
      { name := p.name
        flashBase := offset
        memBase := p.loadaddr
        size := given
        entryPoint := p.loadaddr
        dataLength := given
        padding := List.replicate paddingSize 0
        crcDesc := 0
        crcFile := 0 } ::
      newDescs parts ((offset + given) % 2 ^ 32) ((size + 2 ^ 32 - given) % 2 ^ 32)

/-- memmove(desc, last, end - desc), on slots. -/
def moveUp (table : List Desc) (desc last : ℕ) : List Desc :=
  table.take desc ++ segment table last (table.length - desc)

/-- fis_remap of the table that fis_open has mapped. There is no result without an old
entry, where a null pointer is read, nor when fewer slots are needed than there were,
where the length of memset wraps, nor when the new entries do not fit. -/
def fisRemap (table : List Desc) (old new : List Part) : Option (ℤ × List Desc) :=
  let seen := lookTable old table
  match seen.first, seen.last with
  | some first, some last =>
      let a := (table.getD first erased).flashBase
      let b := (table.getD last erased).flashBase
      let firstFb := if a > b then b else a
      let lastFb := if a > b then a else b
      let size := (nextBase lastFb table seen.offset + 2 ^ 32 - firstFb) % 2 ^ 32
      let desc := first + new.length
      if desc < last + 1 then none
      else if table.length < desc then none
      else
        let table := if last + 1 < desc then moveUp table desc (last + 1) else table
        some (0, patch table first (newDescs new firstFb size))
  | _, _ => none

variable {table : List Desc} {old new : List Part}

/-- The entries cut at the first and behind the last old one. -/
structure Cut (old : List Part) (es : List Desc) (f l : ℕ) (before middle after : List Desc) :
    Prop where
  whole : es = before ++ middle ++ after
  start : before.length = f
  stop : l + 1 = f + middle.length
  before_new : ∀ d ∈ before, ¬isOld old d
  after_new : ∀ d ∈ after, ¬isOld old d
  head : ∃ d, middle.head? = some d ∧ isOld old d
  getLast : ∃ d, middle.getLast? = some d ∧ isOld old d

/-- What the first loop knows after some entries. -/
structure Seen (old : List Part) (es : List Desc) (s : Look) : Prop where
  slot : s.slot = es.length
  none_iff : s.first = none ↔ ∀ d ∈ es, ¬isOld old d
  cut : ∀ f, s.first = some f → ∃ l before middle after, s.last = some l ∧
    Cut old es f l before middle after

theorem seen_of_new {es : List Desc} {s : Look} {d : Desc} (h : Seen old es s)
    (hnew : isOld old d = false) : Seen old (es ++ [d]) (look old s d) := by
  have hnot : ¬isOld old d := by simp [hnew]
  refine ⟨by simp [look, h.slot], ?_, fun f hf => ?_⟩
  · unfold look
    simp only [hnew, Bool.false_and, List.mem_append, List.mem_singleton]
    refine h.none_iff.trans ⟨?_, fun hall d' hd' => hall d' (Or.inl hd')⟩
    rintro hall d' (hd' | rfl)
    · exact hall d' hd'
    · exact hnot
  · obtain ⟨l, before, middle, after, hlast, hcut⟩ := h.cut f (by simpa [look, hnew] using hf)
    refine ⟨l, before, middle, after ++ [d], by simpa [look, hnew] using hlast,
      by simp [hcut.whole], hcut.start, hcut.stop, hcut.before_new, ?_, hcut.head, hcut.getLast⟩
    intro d' hd'
    rcases List.mem_append.mp hd' with hmem | hmem
    · exact hcut.after_new d' hmem
    · obtain rfl := List.mem_singleton.mp hmem
      exact hnot

theorem seen_of_old {es : List Desc} {s : Look} {d : Desc} (h : Seen old es s)
    (hold : isOld old d = true) : Seen old (es ++ [d]) (look old s d) := by
  have hlast : (look old s d).last = some s.slot := by simp [look, hold]
  have hsome : ¬∀ d' ∈ es ++ [d], ¬isOld old d' := fun hall => hall d (by simp) hold
  cases hfirst : s.first with
  | none =>
    have hslot : (look old s d).first = some s.slot := by simp [look, hold, hfirst]
    refine ⟨by simp [look, h.slot], ?_, fun f hf => ?_⟩
    · rw [hslot]
      exact ⟨fun hno => (by cases hno), fun hall => absurd hall hsome⟩
    · rw [hslot] at hf
      obtain rfl := Option.some.inj hf
      exact ⟨s.slot, es, [d], [], hlast, by simp, h.slot.symm, rfl, h.none_iff.mp hfirst,
        fun d' hd' => (by cases hd'), ⟨d, rfl, hold⟩, d, rfl, hold⟩
  | some f0 =>
    have hkept : (look old s d).first = some f0 := by simp [look, hfirst]
    obtain ⟨l, before, middle, after, _, hcut⟩ := h.cut f0 hfirst
    refine ⟨by simp [look, h.slot], ?_, fun f hf => ?_⟩
    · rw [hkept]
      exact ⟨fun hno => (by cases hno), fun hall => absurd hall hsome⟩
    · rw [hkept] at hf
      obtain rfl := Option.some.inj hf
      obtain ⟨x, hx, hxold⟩ := hcut.head
      have hne : middle ≠ [] := by
        rintro rfl
        cases hx
      have hlen := congrArg List.length hcut.whole
      simp only [List.length_append] at hlen
      refine ⟨s.slot, before, middle ++ after ++ [d], [], hlast, by simp [hcut.whole], hcut.start, ?_,
        hcut.before_new, fun d' hd' => (by cases hd'), ⟨x, ?_, hxold⟩, d, by simp, hold⟩
      · have := hcut.start
        have := h.slot
        simp only [List.length_append, List.length_singleton]
        omega
      · rw [List.append_assoc, List.head?_append_of_ne_nil _ hne]
        exact hx

theorem seen_foldl (old : List Part) (es : List Desc) :
    Seen old es (es.foldl (look old) ⟨0, 0, none, none⟩) := by
  induction es using List.reverseRecOn with
  | nil => exact ⟨rfl, ⟨fun _ d hd => (by cases hd), fun _ => rfl⟩, fun f hf => (by cases hf)⟩
  | append_singleton es d ih =>
    rw [List.foldl_append]
    cases hold : isOld old d with
    | false => exact seen_of_new ih hold
    | true => exact seen_of_old ih hold

/-- The slots behind the entries. -/
def unused (table : List Desc) : List Desc := table.dropWhile fun d => !endMark d.name

theorem entries_unused (table : List Desc) : entries table ++ unused table = table :=
  List.takeWhile_append_dropWhile

@[simp] theorem newDescs_length (new : List Part) (offset size : ℕ) :
    (newDescs new offset size).length = new.length := by
  induction new generalizing offset size with
  | nil => rfl
  | cons p new ih => rw [newDescs, List.length_cons, List.length_cons, ih]

def baseAt (table : List Desc) (slot : ℕ) : ℕ := (table.getD slot erased).flashBase

/-- The base and the size of the region that fis_remap gives to the new entries, for the
slots of the first and the last old one. -/
def regionBase (table : List Desc) (f l : ℕ) : ℕ := min (baseAt table f) (baseAt table l)

def regionStop (table : List Desc) (old : List Part) (f l : ℕ) : ℕ :=
  nextBase (max (baseAt table f) (baseAt table l)) table (lookTable old table).offset

def regionSize (table : List Desc) (old : List Part) (f l : ℕ) : ℕ :=
  (regionStop table old f l + 2 ^ 32 - regionBase table f l) % 2 ^ 32

/-- Without an old entry nothing is returned. -/
theorem fisRemap_none (h : ∀ d ∈ entries table, ¬isOld old d) : fisRemap table old new = none := by
  have hfirst : (lookTable old table).first = none := (seen_foldl old _).none_iff.mpr h
  unfold fisRemap
  dsimp only
  rw [hfirst]

/-- With one, the new entries replace the slots from the first to the last. -/
theorem fisRemap_cut (new : List Part) {d : Desc} (hd : d ∈ entries table) (hold : isOld old d) :
    ∃ f l before middle after, Cut old (entries table) f l before middle after ∧
      fisRemap table old new =
        if new.length < middle.length ∨ table.length < f + new.length then none
        else some (0, before ++
          newDescs new (regionBase table f l) (regionSize table old f l) ++
          (after ++ unused table).take (table.length - (f + new.length))) := by
  have hseen := seen_foldl old (entries table)
  cases hfirst : (lookTable old table).first with
  | none => exact absurd hold (hseen.none_iff.mp hfirst d hd)
  | some f =>
    obtain ⟨l, before, middle, after, hlast, hcut⟩ := hseen.cut f hfirst
    refine ⟨f, l, before, middle, after, hcut, ?_⟩
    have htable : table = before ++ (middle ++ (after ++ unused table)) := by
      conv_lhs => rw [← entries_unused table, hcut.whole]
      simp only [List.append_assoc]
    have hstart := hcut.start
    have hstop := hcut.stop
    have hbefore : table.take f = before := by
      rw [htable, ← hstart, List.take_left]
    have hafter : table.drop (l + 1) = after ++ unused table := by
      rw [hstop, ← hstart, ← List.length_append]
      conv_lhs => rw [htable]
      rw [← List.append_assoc, List.drop_left]
    have hlen : table.length = f + (middle.length + (after ++ unused table).length) := by
      conv_lhs => rw [htable]
      rw [List.length_append, List.length_append, hstart]
    have hmin (a b : ℕ) : (if a > b then b else a) = min a b := by
      rw [min_def]
      split <;> split <;> omega
    have hmax (a b : ℕ) : (if a > b then a else b) = max a b := by
      rw [max_def]
      split <;> split <;> omega
    unfold fisRemap
    dsimp only
    rw [hfirst, show (lookTable old table).last = some l from hlast]
    dsimp only
    rw [hmin, hmax]
    by_cases hfew : f + new.length < l + 1
    · rw [if_pos hfew, if_pos (Or.inl (by omega))]
    · rw [if_neg hfew]
      by_cases hmany : table.length < f + new.length
      · rw [if_pos hmany, if_pos (Or.inr hmany)]
      · have hroom : ¬(new.length < middle.length ∨ table.length < f + new.length) := by omega
        rw [if_neg hmany, if_neg hroom, Option.some_inj, Prod.mk.injEq]
        refine ⟨rfl, ?_⟩
        unfold patch
        rw [newDescs_length]
        split
        · have htake : (table.take (f + new.length)).length = f + new.length := by
            rw [List.length_take]
            omega
          unfold moveUp Lib.segment
          rw [List.take_append_of_le_length (by omega), List.take_take,
            Nat.min_eq_left (by omega), hbefore, List.drop_append_of_le_length (by omega),
            List.drop_eq_nil_of_le (by omega), List.nil_append, hafter]
          rfl
        · rw [show f + new.length = l + 1 by omega, hbefore, hafter, List.take_of_length_le (by omega)]
          rfl

/-- The entries that are not to be replaced. -/
def kept (table : List Desc) (old : List Part) : List Desc :=
  (entries table).filter fun d => !isOld old d

/-- An entry made from a new partition. -/
structure MadeFrom (p : Part) (d : Desc) : Prop where
  name : d.name = p.name
  memBase : d.memBase = p.loadaddr
  entryPoint : d.entryPoint = p.loadaddr
  size : p.size ≠ 0 → d.size = p.size

/-- The table that the splice owes: the kept entries unchanged and in order, the new ones
once each and in order, no other entry, and 0xff behind them. -/
def Spliced (table : List Desc) (old new : List Part) (table' : List Desc) : Prop :=
  ∃ result made rest, table' = result ++ rest ∧ List.Forall₂ MadeFrom new made ∧
    result.Perm (kept table old ++ made) ∧ (kept table old).Sublist result ∧
    made.Sublist result ∧ ∀ d ∈ rest, d = erased

/-- Every entry between two old ones is old. -/
def Adjacent (old : List Part) (es : List Desc) : Prop :=
  ∀ (i j k : ℕ) (x y z : Desc), i < j → j < k → es[i]? = some x → es[j]? = some y →
    es[k]? = some z → isOld old x → isOld old z → isOld old y

/-- The old entries are in adjacent slots, there are at least as many new ones, and the
slots that stay behind the entries are erased. -/
structure SpliceFits (table : List Desc) (old new : List Part) : Prop where
  nonempty : old ≠ []
  adjacent : Adjacent old (entries table)
  grows : old.length ≤ new.length
  erased : ∀ d ∈ (unused table).take (table.length + old.length -
    ((entries table).length + new.length)), d = Fis.erased

theorem newDescs_made (new : List Part) (offset size : ℕ) :
    List.Forall₂ MadeFrom new (newDescs new offset size) := by
  induction new generalizing offset size with
  | nil => exact List.Forall₂.nil
  | cons p new ih =>
    refine List.Forall₂.cons ⟨rfl, rfl, rfl, fun hsize => ?_⟩ (ih _ _)
    exact if_pos (Nat.pos_of_ne_zero hsize)

theorem part_of_made {made : List Desc} (h : List.Forall₂ MadeFrom new made) {d : Desc}
    (hd : d ∈ made) : ∃ p ∈ new, MadeFrom p d := by
  induction h with
  | nil => cases hd
  | @cons p d' new made hmade _ ih =>
    rcases List.mem_cons.mp hd with rfl | hmem
    · exact ⟨p, List.mem_cons_self, hmade⟩
    · obtain ⟨q, hq, hmadeq⟩ := ih hmem
      exact ⟨q, List.mem_cons_of_mem p hq, hmadeq⟩

theorem fisValidate_eq_one (h : fisValidate table old new = 1) :
    (entries table).countP (isOld old) = old.length := by
  unfold fisValidate at h
  split at h
  · exact absurd h (by decide)
  · split at h
    · assumption
    · exact absurd h (by decide)

theorem entries_not_end {d : Desc} (h : d ∈ entries table) : endMark d.name = false := by
  simpa using List.mem_takeWhile_imp h

theorem unused_head {d : Desc} (h : (unused table).head? = some d) : endMark d.name = true := by
  unfold unused at h
  have := List.head?_dropWhile_not (fun d : Desc => !endMark d.name) table
  rw [h] at this
  simpa using this

namespace Cut

variable {es before middle after : List Desc} {f l : ℕ}

theorem middle_ne (h : Cut old es f l before middle after) : middle ≠ [] := by
  rintro rfl
  obtain ⟨d, hd, _⟩ := h.head
  cases hd

theorem count (h : Cut old es f l before middle after) :
    es.countP (isOld old) = middle.countP (isOld old) := by
  rw [h.whole, List.countP_append, List.countP_append, List.countP_eq_zero.mpr h.before_new,
    List.countP_eq_zero.mpr h.after_new, Nat.zero_add, Nat.add_zero]

theorem kept_eq (h : Cut old es f l before middle after) :
    es.filter (fun d => !isOld old d) =
      before ++ middle.filter (fun d => !isOld old d) ++ after := by
  have hall {ds : List Desc} (hds : ∀ d ∈ ds, ¬isOld old d) :
      ds.filter (fun d => !isOld old d) = ds :=
    List.filter_eq_self.mpr fun d hd => by simpa using hds d hd
  rw [h.whole, List.filter_append, List.filter_append, hall h.before_new, hall h.after_new]

/-- The old entries are adjacent when nothing else is between the first and the last. -/
theorem adjacent_iff (h : Cut old es f l before middle after) :
    Adjacent old es ↔ middle.countP (isOld old) = middle.length := by
  have hstart := h.start
  have hmid {j : ℕ} (hj : j < middle.length) : es[f + j]? = middle[j]? := by
    rw [h.whole, List.append_assoc, ← hstart, List.getElem?_append_right (by omega),
      Nat.add_sub_cancel_left, List.getElem?_append_left hj]
  have hlow {i : ℕ} {x : Desc} (hx : es[i]? = some x) (hold : isOld old x) : f ≤ i := by
    by_contra hlt
    rw [h.whole, List.append_assoc, List.getElem?_append_left (by omega)] at hx
    exact h.before_new x (List.mem_of_getElem? hx) hold
  have hhigh {k : ℕ} {z : Desc} (hz : es[k]? = some z) (hold : isOld old z) :
      k < f + middle.length := by
    by_contra hge
    rw [h.whole, List.getElem?_append_right (by rw [List.length_append]; omega)] at hz
    exact h.after_new z (List.mem_of_getElem? hz) hold
  rw [List.countP_eq_length]
  constructor
  · intro hadj y hy
    obtain ⟨j, hj⟩ := List.mem_iff_getElem?.mp hy
    obtain ⟨hlt, _⟩ := List.getElem?_eq_some_iff.mp hj
    obtain ⟨x, hx, hxold⟩ := h.head
    obtain ⟨z, hz, hzold⟩ := h.getLast
    rw [List.head?_eq_getElem?] at hx
    rw [List.getLast?_eq_getElem?] at hz
    by_cases hfirst : j = 0
    · rw [hfirst, hx] at hj
      exact Option.some.inj hj ▸ hxold
    · by_cases hlast : j = middle.length - 1
      · rw [hlast, hz] at hj
        exact Option.some.inj hj ▸ hzold
      · refine hadj (f + 0) (f + j) (f + (middle.length - 1)) x y z (by omega) (by omega) ?_ ?_ ?_
          hxold hzold
        · rw [hmid (by omega), hx]
        · rw [hmid hlt, hj]
        · rw [hmid (by omega), hz]
  · intro hall i j k x y z hij hjk hx hy hz hxold hzold
    have hi := hlow hx hxold
    have hk := hhigh hz hzold
    obtain ⟨m, rfl⟩ := Nat.exists_eq_add_of_le (show f ≤ j by omega)
    rw [hmid (by omega)] at hy
    exact hall y (List.mem_of_getElem? hy)

end Cut

section

variable {before middle after made : List Desc} {f l : ℕ}

/-- The table after the remap, for old entries that are one run of slots. -/
theorem spliced_of_adjacent (hcut : Cut old (entries table) f l before middle after)
    (hall : ∀ d ∈ middle, isOld old d) (hmade : List.Forall₂ MadeFrom new made) {r : ℕ}
    (herased : ∀ d ∈ (unused table).take r, d = erased) :
    Spliced table old new (before ++ made ++ (after ++ (unused table).take r)) := by
  have hkept : kept table old = before ++ after := by
    have hnone : middle.filter (fun d => !isOld old d) = [] :=
      List.filter_eq_nil_iff.mpr fun d hd => by simpa using hall d hd
    unfold kept
    rw [hcut.kept_eq, hnone, List.append_nil]
  refine ⟨before ++ made ++ after, made, (unused table).take r, (List.append_assoc _ _ _).symm,
    hmade, ?_, ?_, ?_, herased⟩
  · rw [hkept, List.append_assoc, List.append_assoc]
    exact List.Perm.append_left before List.perm_append_comm
  · rw [hkept, List.append_assoc]
    exact List.Sublist.append (List.Sublist.refl before) (List.sublist_append_right made after)
  · rw [List.append_assoc]
    exact (List.sublist_append_left made after).trans (List.sublist_append_right before _)

/-- A table that is spliced rightly has no room for an end mark among its entries. -/
theorem adjacent_of_spliced (hcut : Cut old (entries table) f l before middle after)
    (hnames : ∀ p ∈ new, endMark p.name = false) (hlen : made.length = new.length) {r : ℕ}
    (hroom : middle.countP (isOld old) < middle.length → 0 < r ∧ unused table ≠ [])
    (h : Spliced table old new (before ++ made ++ (after ++ (unused table).take r))) :
    middle.countP (isOld old) = middle.length ∧ ∀ d ∈ (unused table).take r, d = erased := by
  obtain ⟨result, made', rest, heq, hforall, hperm, _, _, herased⟩ := h
  have hmade := hforall.length_eq
  have hresult := hperm.length_eq
  have hle : middle.countP (isOld old) ≤ middle.length := List.countP_le_length
  have hsplit := List.length_eq_countP_add_countP (isOld old) (l := middle)
  have hkept : (kept table old).length = before.length +
      (middle.length - middle.countP (isOld old)) + after.length := by
    have hnot : middle.countP (fun d => !isOld old d) = middle.length -
        middle.countP (isOld old) := by
      rw [hsplit]
      simp
    unfold kept
    rw [hcut.kept_eq, List.length_append, List.length_append, ← List.countP_eq_length_filter, hnot]
  rw [List.length_append, hkept] at hresult
  have hall : middle.countP (isOld old) = middle.length := by
    by_contra hne
    obtain ⟨hr, hunused⟩ := hroom (by omega)
    obtain ⟨u, us, hu⟩ := List.exists_cons_of_ne_nil hunused
    have hend : endMark u.name = true := unused_head (by rw [hu]; rfl)
    have hat : (before ++ made ++ (after ++ (unused table).take r))[
        before.length + made.length + after.length]? = some u := by
      rw [List.getElem?_append_right (by rw [List.length_append]; omega),
        List.getElem?_append_right (by rw [List.length_append]; omega), List.length_append,
        Nat.add_sub_cancel_left, Nat.sub_self, List.getElem?_take_of_lt hr, hu]
      rfl
    rw [heq, List.getElem?_append_left (by omega)] at hat
    rcases List.mem_append.mp (hperm.subset (List.mem_of_getElem? hat)) with hmem | hmem
    · have := entries_not_end (List.mem_filter.mp hmem).1
      rw [hend] at this
      cases this
    · obtain ⟨p, hp, hmadeFrom⟩ := part_of_made hforall hmem
      rw [hmadeFrom.name, hnames p hp] at hend
      cases hend
  refine ⟨hall, fun d hd => herased d ?_⟩
  rw [← List.append_assoc] at heq
  have hrest := (List.append_inj heq (by
    rw [List.length_append, List.length_append]
    omega)).2
  rwa [← hrest]

end

/-- After fis_validate the splice is right exactly when the old entries are adjacent, the
new ones are at least as many, and what stays behind them is erased. -/
theorem fis_remap_splices_iff (haccepted : fisValidate table old new = 1)
    (hnames : ∀ p ∈ new, endMark p.name = false)
    (hfits : (entries table).length + new.length ≤ table.length + old.length) :
    (∃ table', fisRemap table old new = some (0, table') ∧ Spliced table old new table') ↔
      SpliceFits table old new := by
  have hcount := fisValidate_eq_one haccepted
  by_cases hnone : ∀ d ∈ entries table, ¬isOld old d
  · rw [List.countP_eq_zero.mpr hnone] at hcount
    constructor
    · rintro ⟨table', hremap, _⟩
      rw [fisRemap_none hnone] at hremap
      cases hremap
    · intro h
      exact absurd (List.eq_nil_of_length_eq_zero hcount.symm) h.nonempty
  · push Not at hnone
    obtain ⟨d, hd, hold⟩ := hnone
    obtain ⟨f, l, before, middle, after, hcut, hremap⟩ := fisRemap_cut new hd hold
    have hstart := hcut.start
    rw [hcut.count] at hcount
    have hle : middle.countP (isOld old) ≤ middle.length := List.countP_le_length
    have hne := List.length_pos_of_ne_nil hcut.middle_ne
    have hes := congrArg List.length hcut.whole
    have htable := congrArg List.length (entries_unused table)
    simp only [List.length_append] at hes htable
    have htake : (after ++ unused table).take (table.length - (f + new.length)) =
        after ++ (unused table).take (table.length - (f + new.length) - after.length) := by
      rw [List.take_append, List.take_of_length_le (by omega)]
    rw [htake] at hremap
    constructor
    · rintro ⟨table', heq, hspliced⟩
      rw [hremap] at heq
      split at heq
      · cases heq
      · rename_i hgo
        obtain rfl := (Prod.mk.inj (Option.some.inj heq)).2
        obtain ⟨hall, herased⟩ := adjacent_of_spliced hcut hnames (newDescs_length _ _ _)
          (fun hlt => ⟨by omega, List.ne_nil_of_length_pos (by omega)⟩) hspliced
        refine ⟨List.ne_nil_of_length_pos (by omega), hcut.adjacent_iff.mpr hall, by omega, ?_⟩
        rwa [show table.length + old.length - ((entries table).length + new.length) =
          table.length - (f + new.length) - after.length by omega]
    · intro h
      have hall := hcut.adjacent_iff.mp h.adjacent
      have hgrows := h.grows
      have herased := h.erased
      rw [show table.length + old.length - ((entries table).length + new.length) =
        table.length - (f + new.length) - after.length by omega] at herased
      refine ⟨_, hremap.trans (if_neg (by omega)), ?_⟩
      exact spliced_of_adjacent hcut (List.countP_eq_length.mp hall) (newDescs_made _ _ _) herased

/-- A name of one letter, filled with zeros. -/
def letter (b : Byte) : List Byte := b :: List.replicate 15 0

def descOf (b : Byte) (flashBase size : ℕ) : Desc where
  name := letter b
  flashBase := flashBase
  memBase := 0
  size := size
  entryPoint := 0
  dataLength := size
  padding := List.replicate paddingSize 0
  crcDesc := 0
  crcFile := 0

/-- Entries a, b and c in a block of sixteen slots. -/
def abcTable : List Desc :=
  [descOf 0x61 0x10000 0x10000, descOf 0x62 0x20000 0x10000, descOf 0x63 0x30000 0x10000] ++
    List.replicate 13 erased

theorem abcTable_entries : entries abcTable = [descOf 0x61 0x10000 0x10000,
    descOf 0x62 0x20000 0x10000, descOf 0x63 0x30000 0x10000] := by decide +kernel

/-- Entry b is replaced by x and y. -/
theorem fis_remap_splices_abc :
    ∃ table', fisRemap abcTable [⟨letter 0x62, 0, 0⟩]
        [⟨letter 0x78, 0, 0x8000⟩, ⟨letter 0x79, 0, 0⟩] = some (0, table') ∧
      Spliced abcTable [⟨letter 0x62, 0, 0⟩] [⟨letter 0x78, 0, 0x8000⟩, ⟨letter 0x79, 0, 0⟩]
        table' := by
  refine (fis_remap_splices_iff (by decide +kernel) (by decide) (by decide +kernel)).mpr ?_
  refine ⟨by decide, ?_, by decide, by decide +kernel⟩
  rw [abcTable_entries]
  intro i j k x y z hij hjk hx hy hz hxold hzold
  have hk : k < 3 := (List.getElem?_eq_some_iff.mp hz).1
  obtain rfl : i = 0 := by omega
  obtain rfl : x = descOf 0x61 0x10000 0x10000 := (Option.some.inj hx).symm
  exact absurd hxold (by decide)

/-- With a and c replaced by three entries, b is lost. -/
theorem entry_between_is_lost :
    fisValidate abcTable [⟨letter 0x61, 0, 0⟩, ⟨letter 0x63, 0, 0⟩]
        [⟨letter 0x78, 0, 0x1000⟩, ⟨letter 0x79, 0, 0x1000⟩, ⟨letter 0x7a, 0, 0⟩] = 1 ∧
      ¬∃ table', fisRemap abcTable [⟨letter 0x61, 0, 0⟩, ⟨letter 0x63, 0, 0⟩]
          [⟨letter 0x78, 0, 0x1000⟩, ⟨letter 0x79, 0, 0x1000⟩, ⟨letter 0x7a, 0, 0⟩] =
            some (0, table') ∧
        Spliced abcTable [⟨letter 0x61, 0, 0⟩, ⟨letter 0x63, 0, 0⟩]
          [⟨letter 0x78, 0, 0x1000⟩, ⟨letter 0x79, 0, 0x1000⟩, ⟨letter 0x7a, 0, 0⟩] table' := by
  refine ⟨by decide +kernel, ?_⟩
  rintro ⟨table', hremap, result, made, rest, heq, _, hperm, _⟩
  have hkept : descOf 0x62 0x20000 0x10000 ∈ kept abcTable [⟨letter 0x61, 0, 0⟩,
    ⟨letter 0x63, 0, 0⟩] := by decide +kernel
  have hresult := hperm.symm.subset (List.mem_append_left made hkept)
  have hmem : descOf 0x62 0x20000 0x10000 ∈ table' := heq ▸ List.mem_append_left rest hresult
  have hlost : (fisRemap abcTable [⟨letter 0x61, 0, 0⟩, ⟨letter 0x63, 0, 0⟩]
      [⟨letter 0x78, 0, 0x1000⟩, ⟨letter 0x79, 0, 0x1000⟩, ⟨letter 0x7a, 0, 0⟩]).any
      (fun r => decide (descOf 0x62 0x20000 0x10000 ∈ r.2)) = false := by decide +kernel
  rw [hremap, Option.any_some] at hlost
  exact absurd hmem (by simpa using hlost)

/-- The entry occupies the address. -/
def Occupies (d : Desc) (x : ℕ) : Prop := d.flashBase ≤ x ∧ x < d.flashBase + d.size

def Apart (d e : Desc) : Prop := ∀ x, ¬(Occupies d x ∧ Occupies e x)

instance : Std.Symm Apart := ⟨fun _ _ h x hx => h x hx.symm⟩

/-- Entries with pairwise disjoint ranges in a flash of 32-bit addresses. -/
structure Ranges (table : List Desc) : Prop where
  apart : (entries table).Pairwise Apart
  occupied : ∀ d ∈ entries table, 0 < d.size
  bounded : ∀ d ∈ entries table, d.flashBase + d.size ≤ 2 ^ 32

/-- Consecutive ranges from one address to another. -/
def Laid : ℕ → List Desc → ℕ → Prop
  | pos, [], stop => pos = stop
  | pos, d :: ds, stop => d.flashBase = pos ∧ Laid (pos + d.size) ds stop

/-- The lowest base of an old entry. -/
def LowestOld (table : List Desc) (old : List Part) (base : ℕ) : Prop :=
  (∃ d ∈ entries table, isOld old d ∧ d.flashBase = base) ∧
    ∀ d ∈ entries table, isOld old d → base ≤ d.flashBase

/-- An entry that follows all old ones in flash. -/
def Follows (table : List Desc) (old : List Part) (e : Desc) : Prop :=
  e ∈ entries table ∧ ∀ d ∈ entries table, isOld old d → d.flashBase < e.flashBase

/-- The sizes that are asked for fit in front of the next entry, or at the end of the flash
in the old ranges. -/
def Requested (table : List Desc) (old new : List Part) (base : ℕ) : Prop :=
  (∃ e, Follows table old e) ∨
    ∃ d ∈ entries table, isOld old d ∧ base + (new.map Part.size).sum ≤ d.flashBase + d.size

/-- The new entries in the table after a remap. -/
def madeEntries (table : List Desc) (old new : List Part) (table' : List Desc) : List Desc :=
  segment table' ((entries table).findIdx (isOld old)) new.length

/-- What a remap that returns 0 owes to the flash. -/
structure NewRanges (table : List Desc) (old new : List Part) (made : List Desc) : Prop where
  laid : ∃ base stop, LowestOld table old base ∧ Laid base made stop ∧ stop ≤ 2 ^ 32 ∧
    Requested table old new base
  below : ∀ d ∈ made, ∀ e, Follows table old e → d.flashBase + d.size ≤ e.flashBase
  apart : ∀ d ∈ made, ∀ e ∈ kept table old, Apart d e

/-- The old entries, in the order of the table. -/
def oldEntries (table : List Desc) (old : List Part) : List Desc :=
  (entries table).filter (isOld old)

/-- The next base above the given one, or this one when there is none. -/
def stopAfter (table : List Desc) (base : ℕ) : ℕ :=
  ((((entries table).map Desc.flashBase).filter fun b => base < b).min?).getD base

/-- Where the partitions end that are placed from an address on, each starting below 2^32;
one without a size reaches to the given stop, or to that of the next turn. -/
def Placed (stop : ℕ) : ℕ → List Part → ℕ → Prop
  | pos, [], finish => pos = finish
  | pos, p :: parts, finish =>
      pos < 2 ^ 32 ∧
        Placed stop (if p.size = 0 then if pos ≤ stop then stop else 2 ^ 32 + stop else pos + p.size)
          parts finish

/-- The lowest old base belongs to the first or the last old slot, and the partitions placed
from there on end at or before the base of every kept entry above. -/
def RequestFits (table : List Desc) (old new : List Part) : Prop :=
  ∃ first last base finish, (oldEntries table old).head? = some first ∧
    (oldEntries table old).getLast? = some last ∧ base = min first.flashBase last.flashBase ∧
    LowestOld table old base ∧
    Placed (stopAfter table (max first.flashBase last.flashBase)) base new finish ∧
    finish ≤ 2 ^ 32 ∧ (∀ e ∈ kept table old, base < e.flashBase → finish ≤ e.flashBase) ∧
    Requested table old new base

variable {table table' : List Desc} {old new : List Part}

theorem laid_le {pos stop : ℕ} {ds : List Desc} (h : Laid pos ds stop) : pos ≤ stop := by
  induction ds generalizing pos with
  | nil => exact le_of_eq h
  | cons d ds ih => exact (Nat.le_add_right pos d.size).trans (ih h.2)

theorem laid_mem {pos stop : ℕ} {ds : List Desc} (h : Laid pos ds stop) {d : Desc} (hd : d ∈ ds) :
    pos ≤ d.flashBase ∧ d.flashBase + d.size ≤ stop := by
  induction ds generalizing pos with
  | nil => cases hd
  | cons d' ds ih =>
    rcases List.mem_cons.mp hd with rfl | hmem
    · have := laid_le h.2
      rw [h.1]
      exact ⟨le_refl _, this⟩
    · have := ih h.2 hmem
      exact ⟨by omega, this.2⟩

/-- Consecutive ranges leave no address out. -/
theorem laid_covers {pos stop x : ℕ} {ds : List Desc} (h : Laid pos ds stop) (hx : pos ≤ x)
    (hlt : x < stop) : ∃ d ∈ ds, Occupies d x := by
  induction ds generalizing pos with
  | nil =>
    have : pos = stop := h
    omega
  | cons d ds ih =>
    by_cases hin : x < pos + d.size
    · exact ⟨d, List.mem_cons_self, by rw [h.1]; exact hx, by rw [h.1]; exact hin⟩
    · obtain ⟨d', hd', hocc⟩ := ih h.2 (by omega)
      exact ⟨d', List.mem_cons_of_mem d hd', hocc⟩

/-- The last loop lays the entries out as placed, as long as nothing wraps. -/
theorem laid_iff_placed {stop : ℕ} (hstop : stop < 2 ^ 32) (new : List Part)
    (hnew : ∀ p ∈ new, p.size < 2 ^ 32) (pos finish : ℕ) :
    Laid pos (newDescs new (pos % 2 ^ 32) ((stop + 2 ^ 32 - pos % 2 ^ 32) % 2 ^ 32)) finish ∧
        finish ≤ 2 ^ 32 ↔
      Placed stop pos new finish ∧ finish ≤ 2 ^ 32 := by
  induction new generalizing pos with
  | nil => exact Iff.rfl
  | cons p new ih =>
    rw [List.forall_mem_cons] at hnew
    set r := (stop + 2 ^ 32 - pos % 2 ^ 32) % 2 ^ 32 with hr
    set given := if p.size > 0 then p.size else r with hgiven
    set next := if p.size = 0 then if pos ≤ stop then stop else 2 ^ 32 + stop else pos + p.size
      with hnext
    change (pos % 2 ^ 32 = pos ∧ Laid (pos + given) (newDescs new ((pos % 2 ^ 32 + given) % 2 ^ 32)
      ((r + 2 ^ 32 - given) % 2 ^ 32)) finish) ∧ _ ↔ (pos < 2 ^ 32 ∧ Placed stop next new finish) ∧ _
    by_cases hpos : pos < 2 ^ 32
    · have hmod : pos % 2 ^ 32 = pos := Nat.mod_eq_of_lt hpos
      have hstep : pos + given = next := by
        rw [hgiven, hnext]
        by_cases hzero : p.size = 0
        · rw [if_neg (by omega), if_pos hzero]
          split
          · omega
          · omega
        · rw [if_pos (by omega), if_neg hzero]
      have hoffset : (pos % 2 ^ 32 + given) % 2 ^ 32 = next % 2 ^ 32 := by rw [hmod, hstep]
      have hle : given ≤ 2 ^ 32 := by
        rw [hgiven]
        split
        · omega
        · omega
      have hsize : (r + 2 ^ 32 - given) % 2 ^ 32 = (stop + 2 ^ 32 - next % 2 ^ 32) % 2 ^ 32 := by
        rw [← hstep]
        omega
      rw [hoffset, hsize, hstep, and_iff_right hmod, and_iff_right hpos]
      exact ih hnew.2 next
    · constructor
      · rintro ⟨⟨hmod, _⟩, _⟩
        exact absurd (hmod ▸ Nat.mod_lt pos (by decide)) hpos
      · rintro ⟨⟨hlt, _⟩, _⟩
        exact absurd hlt hpos

theorem lookTable_offset (old : List Part) (table : List Desc) :
    (lookTable old table).offset = ((entries table).map Desc.flashBase).foldl max 0 := by
  have hfold (es : List Desc) (s : Look) :
      (es.foldl (look old) s).offset = (es.map Desc.flashBase).foldl max s.offset := by
    induction es generalizing s with
    | nil => rfl
    | cons d es ih =>
      rw [List.foldl_cons, ih, List.map_cons, List.foldl_cons]
      congr 1
      change (if s.offset < d.flashBase then d.flashBase else s.offset) = _
      split
      · omega
      · omega
  exact hfold (entries table) _

theorem nextBase_eq (base : ℕ) (table : List Desc) (offset : ℕ) :
    nextBase base table offset =
      (((entries table).map Desc.flashBase).filter fun b => base < b).foldl min offset := by
  unfold nextBase
  generalize entries table = es
  induction es generalizing offset with
  | nil => rfl
  | cons d es ih =>
    rw [List.foldl_cons, ih, List.map_cons]
    by_cases hbase : base < d.flashBase
    · rw [List.filter_cons_of_pos (by simpa using hbase), List.foldl_cons]
      congr 1
      split
      · omega
      · omega
    · rw [List.filter_cons_of_neg (by simpa using hbase), if_neg fun h => hbase h.1]

theorem le_foldl_max (l : List ℕ) (a : ℕ) : a ≤ l.foldl max a ∧ ∀ b ∈ l, b ≤ l.foldl max a := by
  induction l generalizing a with
  | nil => exact ⟨le_refl _, fun b hb => (by cases hb)⟩
  | cons c l ih =>
    rw [List.foldl_cons]
    obtain ⟨hle, hall⟩ := ih (max a c)
    exact ⟨by omega, List.forall_mem_cons.mpr ⟨by omega, hall⟩⟩

theorem foldl_max_le (l : List ℕ) {a m : ℕ} (ha : a ≤ m) (hall : ∀ b ∈ l, b ≤ m) :
    l.foldl max a ≤ m := by
  induction l generalizing a with
  | nil => exact ha
  | cons c l ih =>
    rw [List.forall_mem_cons] at hall
    exact ih (max_le ha hall.1) hall.2

theorem stopAfter_lt {base m : ℕ} (hall : ∀ d ∈ entries table, d.flashBase < m)
    (hbase : base < m) : stopAfter table base < m := by
  unfold stopAfter
  cases hmin : (((entries table).map Desc.flashBase).filter fun b => base < b).min? with
  | none => exact hbase
  | some b =>
    obtain ⟨d, hd, rfl⟩ := List.mem_map.mp (List.mem_filter.mp (List.min?_mem hmin)).1
    exact hall d hd

/-- What the two loops find is the next base. -/
theorem nextBase_stopAfter {base : ℕ} (hbase : base ∈ (entries table).map Desc.flashBase) :
    nextBase base table (lookTable old table).offset = stopAfter table base := by
  rw [nextBase_eq, lookTable_offset]
  unfold stopAfter
  generalize hl : (entries table).map Desc.flashBase = l at hbase
  obtain ⟨_, hmax⟩ := le_foldl_max l 0
  cases hfilter : l.filter fun b => base < b with
  | nil =>
    have hall : ∀ b ∈ l, b ≤ base := fun b hb =>
      Nat.le_of_not_lt fun hlt => List.filter_eq_nil_iff.mp hfilter b hb (by simpa using hlt)
    exact le_antisymm (foldl_max_le l (Nat.zero_le _) hall) (hmax base hbase)
  | cons c cs =>
    have hc : c ∈ l := (List.mem_filter.mp (hfilter ▸ List.mem_cons_self)).1
    rw [List.min?_cons', Option.getD_some, List.foldl_cons, Nat.min_eq_right (hmax c hc)]

namespace Cut

variable {es before middle after : List Desc} {f l : ℕ}

theorem filter_eq (h : Cut old es f l before middle after) :
    es.filter (isOld old) = middle.filter (isOld old) := by
  have hnone {ds : List Desc} (hds : ∀ d ∈ ds, ¬isOld old d) : ds.filter (isOld old) = [] :=
    List.filter_eq_nil_iff.mpr hds
  rw [h.whole, List.filter_append, List.filter_append, hnone h.before_new, hnone h.after_new,
    List.nil_append, List.append_nil]

theorem findIdx_eq (h : Cut old es f l before middle after) : es.findIdx (isOld old) = f := by
  obtain ⟨d, hd, hold⟩ := h.head
  obtain ⟨ds, rfl⟩ : ∃ ds, middle = d :: ds := List.head?_eq_some_iff.mp hd
  have hnone : before.findIdx (isOld old) = before.length :=
    List.findIdx_eq_length.mpr fun d hd => by simpa using h.before_new d hd
  rw [h.whole, List.append_assoc, List.findIdx_append, hnone, if_neg (lt_irrefl _),
    List.cons_append, List.findIdx_cons, hold, ← h.start]
  exact Nat.zero_add _

theorem old_head (h : Cut old es f l before middle after) :
    ∃ d, es[f]? = some d ∧ (es.filter (isOld old)).head? = some d := by
  obtain ⟨d, hd, hold⟩ := h.head
  obtain ⟨ds, rfl⟩ : ∃ ds, middle = d :: ds := List.head?_eq_some_iff.mp hd
  refine ⟨d, ?_, ?_⟩
  · rw [h.whole, List.append_assoc, ← h.start, List.getElem?_append_right (le_refl _), Nat.sub_self]
    rfl
  · rw [h.filter_eq, List.filter_cons_of_pos hold]
    rfl

theorem old_getLast (h : Cut old es f l before middle after) :
    ∃ d, es[l]? = some d ∧ (es.filter (isOld old)).getLast? = some d := by
  obtain ⟨d, hd, hold⟩ := h.getLast
  obtain ⟨ds, rfl⟩ : ∃ ds, middle = ds ++ [d] := List.getLast?_eq_some_iff.mp hd
  have hstop := h.stop
  have hstart := h.start
  rw [List.length_append, List.length_singleton] at hstop
  refine ⟨d, ?_, ?_⟩
  · rw [h.whole, List.append_assoc, List.getElem?_append_right (by omega),
      List.getElem?_append_left (by rw [List.length_append, List.length_singleton]; omega),
      List.getElem?_append_right (by omega), show l - before.length - ds.length = 0 by omega]
    rfl
  · rw [h.filter_eq, List.filter_append, List.filter_cons_of_pos hold, List.filter_nil]
    simp

end Cut
theorem baseAt_eq {slot : ℕ} {d : Desc} (h : (entries table)[slot]? = some d) :
    baseAt table slot = d.flashBase := by
  obtain ⟨hlt, _⟩ := List.getElem?_eq_some_iff.mp h
  have htable : table[slot]? = some d := by
    rw [← entries_unused table, List.getElem?_append_left hlt, h]
  unfold baseAt
  rw [List.getD_eq_getElem?_getD, htable, Option.getD_some]

/-- The new entries after a remap that returns 0. -/
theorem madeEntries_eq (hret : fisRemap table old new = some (0, table')) :
    ∃ first last, (oldEntries table old).head? = some first ∧
      (oldEntries table old).getLast? = some last ∧ new ≠ [] ∧
      madeEntries table old new table' =
        newDescs new (min first.flashBase last.flashBase)
          ((stopAfter table (max first.flashBase last.flashBase) + 2 ^ 32 -
            min first.flashBase last.flashBase) % 2 ^ 32) := by
  by_cases hnone : ∀ d ∈ entries table, ¬isOld old d
  · rw [fisRemap_none hnone] at hret
    cases hret
  · push Not at hnone
    obtain ⟨d, hd, hold⟩ := hnone
    obtain ⟨f, l, before, middle, after, hcut, hremap⟩ := fisRemap_cut new hd hold
    rw [hremap] at hret
    split at hret
    · cases hret
    · rename_i hgo
      obtain ⟨first, hfirst, hhead⟩ := hcut.old_head
      obtain ⟨last, hlast, hgetLast⟩ := hcut.old_getLast
      have hne := List.length_pos_of_ne_nil hcut.middle_ne
      have hstop : regionStop table old f l =
          stopAfter table (max first.flashBase last.flashBase) := by
        unfold regionStop
        rw [baseAt_eq hfirst, baseAt_eq hlast]
        refine nextBase_stopAfter ?_
        rcases le_total last.flashBase first.flashBase with h | h
        · rw [max_eq_left h]
          exact List.mem_map_of_mem (List.mem_of_getElem? hfirst)
        · rw [max_eq_right h]
          exact List.mem_map_of_mem (List.mem_of_getElem? hlast)
      have hbase : regionBase table f l = min first.flashBase last.flashBase := by
        unfold regionBase
        rw [baseAt_eq hfirst, baseAt_eq hlast]
      refine ⟨first, last, hhead, hgetLast, List.ne_nil_of_length_pos (by omega), ?_⟩
      rw [← (Prod.mk.inj (Option.some.inj hret)).2]
      unfold madeEntries Lib.segment regionSize
      rw [hcut.findIdx_eq, List.append_assoc, List.drop_left' hcut.start, hstop, hbase]
      exact List.take_left' (newDescs_length _ _ _)

theorem follows_kept {e : Desc} (h : Follows table old e) : e ∈ kept table old := by
  refine List.mem_filter.mpr ⟨h.1, ?_⟩
  rw [Bool.not_eq_true']
  by_contra hold
  exact absurd (h.2 e h.1 (by simpa using hold)) (lt_irrefl _)

/-- Entries that are laid out from the lowest old base and end before all kept entries above
it are apart from every kept entry. -/
theorem apart_of_laid {made : List Desc} {base stop : ℕ} (hranges : Ranges table)
    (hlowest : LowestOld table old base) (hlaid : Laid base made stop)
    (habove : ∀ e ∈ kept table old, base < e.flashBase → stop ≤ e.flashBase) {d e : Desc}
    (hd : d ∈ made) (he : e ∈ kept table old) : Apart d e := by
  rintro x ⟨hdx, hex⟩
  obtain ⟨hlow, hhigh⟩ := laid_mem hlaid hd
  obtain ⟨hde1, hde2⟩ := hdx
  obtain ⟨hex1, hex2⟩ := hex
  obtain ⟨hmem, hnot⟩ := List.mem_filter.mp he
  by_cases hlt : base < e.flashBase
  · have := habove e he hlt
    omega
  · -- the entry covers the lowest old base, and so does the old entry there
    obtain ⟨⟨o, ho, hold, hbase⟩, _⟩ := hlowest
    have hne : o ≠ e := by
      rintro rfl
      rw [hold] at hnot
      cases hnot
    have hapart := hranges.apart.forall ho hmem hne
    have := hranges.occupied o ho
    exact hapart base ⟨⟨by omega, by omega⟩, by omega, by omega⟩

/-- For entries with disjoint ranges and a remap that returns 0, the new ranges are right
exactly when the request fits. -/
theorem fis_ranges_iff (hranges : Ranges table) (hnew : ∀ p ∈ new, p.size < 2 ^ 32)
    (hret : fisRemap table old new = some (0, table')) :
    NewRanges table old new (madeEntries table old new table') ↔ RequestFits table old new := by
  obtain ⟨first, last, hhead, hgetLast, hne, hmade⟩ := madeEntries_eq hret
  have hfirst : first ∈ entries table := List.mem_of_mem_filter (List.mem_of_mem_head? hhead)
  have hlast : last ∈ entries table := List.mem_of_mem_filter (List.mem_of_mem_getLast? hgetLast)
  have hlt {d : Desc} (hd : d ∈ entries table) : d.flashBase < 2 ^ 32 := by
    have := hranges.bounded d hd
    have := hranges.occupied d hd
    omega
  have hlow : min first.flashBase last.flashBase < 2 ^ 32 := by
    have := hlt hfirst
    omega
  have hstop := stopAfter_lt (fun d hd => hlt hd) (max_lt (hlt hfirst) (hlt hlast))
  have hplaced (finish : ℕ) := laid_iff_placed hstop new hnew
    (min first.flashBase last.flashBase) finish
  rw [Nat.mod_eq_of_lt hlow, ← hmade] at hplaced
  have hstart {base stop : ℕ} (hlaid : Laid base (madeEntries table old new table') stop) :
      base = min first.flashBase last.flashBase := by
    obtain ⟨p, parts, rfl⟩ := List.exists_cons_of_ne_nil hne
    rw [hmade] at hlaid
    exact hlaid.1.symm
  constructor
  · intro h
    obtain ⟨base, stop, hlowest, hlaid, hle, hrequested⟩ := h.laid
    obtain rfl := hstart hlaid
    have hplace := (hplaced stop).mp ⟨hlaid, hle⟩
    refine ⟨first, last, _, stop, hhead, hgetLast, rfl, hlowest, hplace.1, hle, ?_, hrequested⟩
    intro e he habove
    by_contra hinside
    obtain ⟨d, hd, hocc⟩ := laid_covers hlaid (le_of_lt habove) (Nat.lt_of_not_le hinside)
    have hsize := hranges.occupied e (List.mem_filter.mp he).1
    exact h.apart d hd e he e.flashBase ⟨hocc, le_refl _, by omega⟩
  · rintro ⟨first', last', base, finish, hhead', hgetLast', rfl, hlowest, hplace, hle, habove,
      hrequested⟩
    obtain rfl := Option.some.inj (hhead.symm.trans hhead')
    obtain rfl := Option.some.inj (hgetLast.symm.trans hgetLast')
    have hlaid := ((hplaced finish).mpr ⟨hplace, hle⟩).1
    refine ⟨⟨_, finish, hlowest, hlaid, hle, hrequested⟩, fun d hd e he => ?_,
      fun d hd e he => apart_of_laid hranges hlowest hlaid habove hd he⟩
    obtain ⟨o, ho, hold, hbase⟩ := hlowest.1
    have := habove e (follows_kept he) (hbase ▸ he.2 o ho hold)
    have := (laid_mem hlaid hd).2
    omega

theorem abcTable_ranges : Ranges abcTable := by
  rw [show Ranges abcTable ↔ _ from ⟨fun h => And.intro h.apart (And.intro h.occupied h.bounded),
    fun h => ⟨h.1, h.2.1, h.2.2⟩⟩, abcTable_entries]
  refine ⟨?_, ?_, ?_⟩
  · simp only [List.pairwise_cons, List.mem_cons, List.not_mem_nil, or_false, forall_eq_or_imp,
      forall_eq, Apart, Occupies, descOf]
    refine ⟨⟨fun x => by omega, fun x => by omega⟩, fun x => by omega, ?_⟩
    simp
  · decide +kernel
  · decide +kernel

/-- Entry b is replaced by x and by y, which gets the rest. -/
theorem fis_ranges_abc : ∃ table', fisRemap abcTable [⟨letter 0x62, 0, 0⟩]
      [⟨letter 0x78, 0, 0x8000⟩, ⟨letter 0x79, 0, 0⟩] = some (0, table') ∧
    NewRanges abcTable [⟨letter 0x62, 0, 0⟩] [⟨letter 0x78, 0, 0x8000⟩, ⟨letter 0x79, 0, 0⟩]
      (madeEntries abcTable [⟨letter 0x62, 0, 0⟩] [⟨letter 0x78, 0, 0x8000⟩, ⟨letter 0x79, 0, 0⟩]
        table') := by
  have hsome : (fisRemap abcTable [⟨letter 0x62, 0, 0⟩]
      [⟨letter 0x78, 0, 0x8000⟩, ⟨letter 0x79, 0, 0⟩]).map Prod.fst = some 0 := by decide +kernel
  obtain ⟨⟨ret, table'⟩, hremap, hret⟩ := Option.map_eq_some_iff.mp hsome
  obtain rfl : ret = 0 := hret
  refine ⟨table', hremap, (fis_ranges_iff abcTable_ranges (by decide) hremap).mpr ?_⟩
  refine ⟨descOf 0x62 0x20000 0x10000, descOf 0x62 0x20000 0x10000, 0x20000, 0x30000,
    by decide +kernel, by decide +kernel, by decide, ?_, ?_, by decide, by decide +kernel, Or.inl ?_⟩
  · exact ⟨by decide +kernel, by decide +kernel⟩
  · have hstop : stopAfter abcTable 0x20000 = 0x30000 := by decide +kernel
    change Placed (stopAfter abcTable 0x20000) _ _ _
    rw [hstop]
    exact ⟨by decide, by decide, rfl⟩
  · exact ⟨descOf 0x63 0x30000 0x10000, by decide +kernel, by decide +kernel⟩

/-- Entry b is replaced by x, which is twice as large and reaches over c. -/
theorem large_request_overlaps : ∃ table', fisRemap abcTable [⟨letter 0x62, 0, 0⟩]
      [⟨letter 0x78, 0, 0x20000⟩] = some (0, table') ∧
    ¬NewRanges abcTable [⟨letter 0x62, 0, 0⟩] [⟨letter 0x78, 0, 0x20000⟩]
      (madeEntries abcTable [⟨letter 0x62, 0, 0⟩] [⟨letter 0x78, 0, 0x20000⟩] table') := by
  have hsome : (fisRemap abcTable [⟨letter 0x62, 0, 0⟩] [⟨letter 0x78, 0, 0x20000⟩]).map
      (fun r => (r.1, madeEntries abcTable [⟨letter 0x62, 0, 0⟩] [⟨letter 0x78, 0, 0x20000⟩] r.2)) =
        some (0, [descOf 0x78 0x20000 0x20000]) := by decide +kernel
  obtain ⟨⟨ret, table'⟩, hremap, hret⟩ := Option.map_eq_some_iff.mp hsome
  obtain ⟨rfl, hmade⟩ : ret = 0 ∧ madeEntries abcTable _ _ table' = _ := Prod.mk.inj hret
  refine ⟨table', hremap, fun h => ?_⟩
  rw [hmade] at h
  refine h.apart _ (List.mem_singleton_self _) (descOf 0x63 0x30000 0x10000) (by decide +kernel)
    0x30000 ⟨⟨by decide, by decide⟩, by decide, by decide⟩

end Iot7688.Fis
