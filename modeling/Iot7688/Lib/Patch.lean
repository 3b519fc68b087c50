import Mathlib.Data.List.Basic

/-!
Lists in which a piece is replaced in place, and the mixture of two lists that a write
of one over the other leaves when it stops early.
-/
namespace Iot7688.Lib

variable {α : Type*}

def segment (l : List α) (off n : ℕ) : List α := (l.drop off).take n

/-- The piece laid over the list from a place on. -/
def patch (l : List α) (off : ℕ) (piece : List α) : List α :=
  l.take off ++ piece ++ l.drop (off + piece.length)

/-- The first k entries of the new list over those of the old one. -/
def overwrite (old new : List α) (k : ℕ) : List α := new.take k ++ old.drop k

theorem getElem?_segment (l : List α) (off n i : ℕ) :
    (segment l off n)[i]? = if i < n then l[off + i]? else none := by
  rw [segment, List.getElem?_take, List.getElem?_drop]

theorem length_segment {l : List α} {off n : ℕ} (h : off + n ≤ l.length) :
    (segment l off n).length = n := by
  rw [segment, List.length_take, List.length_drop]
  omega

section

variable {l piece : List α} {off : ℕ} (h : off + piece.length ≤ l.length)

include h

theorem length_patch : (patch l off piece).length = l.length := by
  simp only [patch, List.length_append, List.length_take, List.length_drop]
  omega

theorem getElem?_patch (i : ℕ) : (patch l off piece)[i]? =
    if off ≤ i ∧ i < off + piece.length then piece[i - off]? else l[i]? := by
  have htake : (l.take off).length = off := by
    rw [List.length_take]
    omega
  rw [patch, List.append_assoc]
  split
  · rw [List.getElem?_append_right (by omega), htake, List.getElem?_append_left (by omega)]
  · by_cases hi : i < off
    · rw [List.getElem?_append_left (by omega), List.getElem?_take, if_pos hi]
    · rw [List.getElem?_append_right (by omega), htake, List.getElem?_append_right (by omega),
        List.getElem?_drop]
      congr 1
      omega

theorem segment_patch : segment (patch l off piece) off piece.length = piece := by
  apply List.ext_getElem?
  intro i
  rw [getElem?_segment, getElem?_patch h]
  split
  · rw [if_pos (by omega), Nat.add_sub_cancel_left]
  · rw [List.getElem?_eq_none (by omega)]

theorem segment_patch_disjoint {off' n : ℕ} (hoff : off' + n ≤ off ∨ off + piece.length ≤ off') :
    segment (patch l off piece) off' n = segment l off' n := by
  apply List.ext_getElem?
  intro i
  rw [getElem?_segment, getElem?_segment, getElem?_patch h]
  split
  · rw [if_neg (by omega)]
  · rfl

theorem patch_patch {piece' : List α} (hlen : piece'.length = piece.length) :
    patch (patch l off piece) off piece' = patch l off piece' := by
  apply List.ext_getElem?
  intro i
  rw [getElem?_patch (by rw [length_patch h, hlen]; exact h), getElem?_patch h,
    getElem?_patch (by rw [hlen]; exact h), hlen]
  by_cases hi : off ≤ i ∧ i < off + piece.length
  · rw [if_pos hi, if_pos hi]
  · rw [if_neg hi, if_neg hi, if_neg hi]

/-- A patch inside of a patch. -/
theorem patch_inside {k : ℕ} {inner : List α} (hk : k + inner.length ≤ piece.length) :
    patch (patch l off piece) (off + k) inner = patch l off (patch piece k inner) := by
  have hlen := length_patch hk
  apply List.ext_getElem?
  intro i
  rw [getElem?_patch (by rw [length_patch h]; omega), getElem?_patch h,
    getElem?_patch (by rw [hlen]; exact h), hlen]
  by_cases hin : off ≤ i ∧ i < off + piece.length
  · rw [if_pos hin, if_pos hin, getElem?_patch hk]
    by_cases hinner : off + k ≤ i ∧ i < off + k + inner.length
    · rw [if_pos hinner, if_pos (by omega), Nat.sub_add_eq]
    · rw [if_neg hinner, if_neg (by omega)]
  · rw [if_neg hin, if_neg hin, if_neg (by omega)]

end

/-- The middle of three parts replaced. -/
theorem patch_append {b piece : List α} (hlen : piece.length = b.length) (a c : List α) :
    patch (a ++ b ++ c) a.length piece = a ++ piece ++ c := by
  have htake : (a ++ b ++ c).take a.length = a := by
    rw [List.append_assoc, List.take_left]
  have hdrop : (a ++ b ++ c).drop (a.length + piece.length) = c := by
    rw [hlen, ← List.length_append, List.drop_left]
  rw [patch, htake, hdrop]

theorem segment_segment (l : List α) (off : ℕ) {n k m : ℕ} (h : k + m ≤ n) :
    segment (segment l off n) k m = segment l (off + k) m := by
  apply List.ext_getElem?
  intro i
  rw [getElem?_segment _ k, getElem?_segment l off, getElem?_segment l (off + k)]
  by_cases hi : i < m
  · rw [if_pos hi, if_pos hi, if_pos (by omega), Nat.add_assoc]
  · rw [if_neg hi, if_neg hi]


theorem patch_cons (a : α) (l : List α) (off : ℕ) (piece : List α) :
    patch (a :: l) (off + 1) piece = a :: patch l off piece := by
  simp only [patch, List.take_succ_cons, Nat.add_right_comm off 1, List.drop_succ_cons,
    List.cons_append]

/-- Behind the part that is cut off, the piece lies as much nearer to the start. -/
theorem drop_patch {l piece : List α} {off n : ℕ} (hn : n ≤ off)
    (h : off + piece.length ≤ l.length) :
    (patch l off piece).drop n = patch (l.drop n) (off - n) piece := by
  apply List.ext_getElem?
  intro i
  rw [List.getElem?_drop, getElem?_patch h, getElem?_patch (by rw [List.length_drop]; omega),
    List.getElem?_drop]
  by_cases hi : off ≤ n + i ∧ n + i < off + piece.length
  · rw [if_pos hi, if_pos (by omega)]
    congr 1
    omega
  · rw [if_neg hi, if_neg (by omega)]

theorem drop_patch_of_le {l piece : List α} {off n : ℕ} (hn : off + piece.length ≤ n)
    (h : off + piece.length ≤ l.length) : (patch l off piece).drop n = l.drop n := by
  apply List.ext_getElem?
  intro i
  rw [List.getElem?_drop, getElem?_patch h, if_neg (by omega), List.getElem?_drop]

theorem take_patch {l : List α} {off n : ℕ} (piece : List α) (hn : n ≤ off) (h : off ≤ l.length) :
    (patch l off piece).take n = l.take n := by
  rw [patch, List.append_assoc, List.take_append_of_le_length (by rw [List.length_take]; omega),
    List.take_take, Nat.min_eq_left hn]

theorem take_patch_end {l : List α} {off : ℕ} (piece : List α) (h : off ≤ l.length) :
    (patch l off piece).take (off + piece.length) = l.take off ++ piece := by
  have hlen : (l.take off ++ piece).length = off + piece.length := by
    rw [List.length_append, List.length_take, Nat.min_eq_left h]
  rw [patch, List.take_append_of_le_length (Nat.le_of_eq hlen.symm),
    List.take_of_length_le (Nat.le_of_eq hlen)]

theorem patch_segment {l : List α} {off n : ℕ} (h : off + n ≤ l.length) :
    patch l off (segment l off n) = l := by
  have hlen := length_segment h
  apply List.ext_getElem?
  intro i
  rw [getElem?_patch (by omega), getElem?_segment, hlen]
  split
  · rw [if_pos (by omega)]
    congr 1
    omega
  · rfl

section

variable {old new : List α} {k : ℕ}

theorem overwrite_all (h : new.length ≤ k) (hlen : old.length ≤ k) : overwrite old new k = new := by
  rw [overwrite, List.take_of_length_le h, List.drop_eq_nil_of_le hlen, List.append_nil]

theorem overwrite_zero (old new : List α) : overwrite old new 0 = old := by
  rw [overwrite, List.take_zero, List.drop_zero, List.nil_append]

theorem overwrite_self (l : List α) (k : ℕ) : overwrite l l k = l := List.take_append_drop k l

variable (hlen : new.length = old.length)

include hlen

theorem length_overwrite : (overwrite old new k).length = old.length := by
  rw [overwrite, List.length_append, List.length_take, List.length_drop]
  omega

theorem getElem?_overwrite (k i : ℕ) :
    (overwrite old new k)[i]? = if i < k then new[i]? else old[i]? := by
  by_cases hi : i < new.length
  · rw [overwrite]
    split
    · rw [List.getElem?_append_left (by rw [List.length_take]; omega), List.getElem?_take,
        if_pos ‹_›]
    · have htake : (new.take k).length = k := by
        rw [List.length_take]
        omega
      rw [List.getElem?_append_right (by omega), htake, List.getElem?_drop]
      congr 1
      omega
  · have hnone : (overwrite old new k)[i]? = none := by
      rw [List.getElem?_eq_none]
      rw [length_overwrite hlen]
      omega
    rw [hnone, List.getElem?_eq_none (Nat.le_of_not_lt hi), List.getElem?_eq_none (by omega),
      ite_self]

theorem overwrite_min (n : ℕ) : overwrite old new (min n new.length) = overwrite old new n := by
  rcases Nat.le_total n new.length with hn | hn
  · rw [Nat.min_eq_left hn]
  · rw [Nat.min_eq_right hn, overwrite_all hn (by omega), overwrite_all (by omega) (by omega)]

theorem overwrite_eq_old : overwrite old new k = old ↔ new.take k = old.take k := by
  constructor
  · intro h
    apply List.ext_getElem?
    intro i
    have hi := getElem?_overwrite hlen k i
    rw [h] at hi
    rw [List.getElem?_take, List.getElem?_take]
    by_cases hik : i < k
    · rw [if_pos hik] at hi
      rw [if_pos hik, if_pos hik, hi]
    · rw [if_neg hik, if_neg hik]
  · intro h
    rw [overwrite, h, List.take_append_drop]

theorem overwrite_eq_new : overwrite old new k = new ↔ new.drop k = old.drop k := by
  constructor
  · intro h
    apply List.ext_getElem?
    intro i
    have hi := getElem?_overwrite hlen k (k + i)
    rw [h, if_neg (by omega)] at hi
    rw [List.getElem?_drop, List.getElem?_drop, hi]
  · intro h
    rw [overwrite, ← h, List.take_append_drop]

theorem segment_overwrite (off n : ℕ) :
    segment (overwrite old new k) off n =
      overwrite (segment old off n) (segment new off n) (k - off) := by
  have hseg : (segment new off n).length = (segment old off n).length := by
    simp only [segment, List.length_take, List.length_drop, hlen]
  apply List.ext_getElem?
  intro i
  rw [getElem?_overwrite hseg, getElem?_segment, getElem?_segment, getElem?_segment,
    getElem?_overwrite hlen]
  by_cases hi : i < n
  · simp only [if_pos hi]
    by_cases hk : off + i < k
    · rw [if_pos hk, if_pos (by omega)]
    · rw [if_neg hk, if_neg (by omega)]
  · simp only [if_neg hi, ite_self]

/-- A piece that both lists get is in their mixture too. -/
theorem patch_overwrite {off : ℕ} {piece : List α} (h : off + piece.length ≤ old.length) :
    patch (overwrite old new k) off piece =
      overwrite (patch old off piece) (patch new off piece) k := by
  have hnew : off + piece.length ≤ new.length := by omega
  apply List.ext_getElem?
  intro i
  rw [getElem?_patch (by rw [length_overwrite hlen]; exact h), getElem?_overwrite hlen,
    getElem?_overwrite (by rw [length_patch h, length_patch hnew]; exact hlen),
    getElem?_patch h, getElem?_patch hnew]
  by_cases hi : off ≤ i ∧ i < off + piece.length
  · simp only [if_pos hi, ite_self]
  · simp only [if_neg hi]

end

/-- The mixture of a list and the list with a piece replaced differs in that piece only. -/
theorem overwrite_patch {l piece : List α} {off : ℕ} (h : off + piece.length ≤ l.length) (k : ℕ) :
    overwrite l (patch l off piece) k =
      patch l off (overwrite (segment l off piece.length) piece (k - off)) := by
  have hseg := length_segment h
  have hmixed : (overwrite (segment l off piece.length) piece (k - off)).length = piece.length := by
    rw [length_overwrite hseg.symm, hseg]
  apply List.ext_getElem?
  intro i
  rw [getElem?_overwrite (length_patch h), getElem?_patch h, getElem?_patch (by omega), hmixed]
  by_cases hi : off ≤ i ∧ i < off + piece.length
  · rw [if_pos hi, if_pos hi, getElem?_overwrite hseg.symm, getElem?_segment]
    by_cases hk : i < k
    · rw [if_pos hk, if_pos (by omega)]
    · rw [if_neg hk, if_neg (by omega), if_pos (by omega)]
      congr 1
      omega
  · rw [if_neg hi, if_neg hi, ite_self]

end Iot7688.Lib
