import Mathlib.Data.List.Basic
import Mathlib.Algebra.Order.Ring.Nat

/-!
Blocks of equal length, some of them marked: the places of those that are not marked, in
their order, and the walk over them until so many whole ones were seen.
-/
namespace Iot7688.Lib

variable (len : ℕ) (marked : ℕ → Bool)

/-- The places of the blocks that are not marked, of a number of blocks from one on. -/
def unmarked : ℕ → ℕ → List ℕ
  | _, 0 => []
  | k, n + 1 =>
      (if marked k then [] else List.range' (k * len) len) ++ unmarked (k + 1) n

/-- The block behind the last one of so many that are not marked, or behind all. -/
def walked : ℕ → ℕ → ℕ → ℕ
  | k, 0, _ => k
  | k, _ + 1, 0 => k
  | k, n + 1, whole + 1 => walked (k + 1) n (if marked k then whole + 1 else whole)

variable {len marked}

theorem unmarked_bounds {k n x : ℕ} (hx : x ∈ unmarked len marked k n) :
    k * len ≤ x ∧ x < (k + n) * len := by
  induction n generalizing k with
  | zero => cases hx
  | succ n ih =>
    have hblock : (k + 1) * len = k * len + len := Nat.succ_mul k len
    have hend : (k + 1) * len ≤ (k + (n + 1)) * len := Nat.mul_le_mul_right len (by omega)
    rcases List.mem_append.mp hx with h | h
    · split at h
      · cases h
      · rw [List.mem_range'_1] at h
        omega
    · have hrest := ih h
      have hassoc : (k + 1 + n) * len = (k + (n + 1)) * len := congrArg (· * len) (by omega)
      omega

theorem unmarked_of_marked {k n : ℕ} (h : ∀ i, k ≤ i → i < k + n → marked i = true) :
    unmarked len marked k n = [] := by
  induction n generalizing k with
  | zero => rfl
  | succ n ih =>
    rw [unmarked, if_pos (h k le_rfl (by omega)), List.nil_append]
    exact ih fun i hi hlt => h i (by omega) (by omega)

/-- The first block that is not marked comes first. -/
theorem take_unmarked {k n i r : ℕ} (hr : r ≤ len) (hk : k ≤ i) (hn : i < k + n)
    (hfree : marked i = false) (hbefore : ∀ j, k ≤ j → j < i → marked j = true) :
    (unmarked len marked k n).take r = List.range' (i * len) r := by
  induction n generalizing k with
  | zero => omega
  | succ n ih =>
    rw [unmarked]
    by_cases hi : k = i
    · subst hi
      rw [hfree, if_neg Bool.false_ne_true, List.take_append_of_le_length (by simpa using hr),
        List.take_range'_of_length_ge hr]
    · rw [if_pos (hbefore k le_rfl (by omega)), List.nil_append]
      exact ih (by omega) (by omega) fun j hj hlt => hbefore j (by omega) hlt

/-- As long as no block is marked the places are those in a row. -/
theorem take_unmarked_row {k n r : ℕ} (hr : r ≤ n * len)
    (hfree : ∀ i, k ≤ i → i < k + n → i * len < k * len + r → marked i = false) :
    (unmarked len marked k n).take r = List.range' (k * len) r := by
  induction n generalizing k r with
  | zero =>
    obtain rfl : r = 0 := by omega
    rfl
  | succ n ih =>
    rw [unmarked]
    rcases Nat.eq_zero_or_pos r with rfl | hpos
    · rfl
    rw [hfree k le_rfl (by omega) (by omega), if_neg Bool.false_ne_true]
    rw [Nat.succ_mul] at hr
    by_cases hle : r ≤ len
    · rw [List.take_append_of_le_length (by rwa [List.length_range']),
        List.take_range'_of_length_ge hle]
    · have hrest := @ih (k + 1) (r - len) (by omega) fun i hi hlt hin =>
        hfree i (by omega) (by omega) (by rw [Nat.succ_mul] at hin; omega)
      rw [List.take_append, List.take_range'_of_length_le (by omega), List.length_range', hrest,
        Nat.succ_mul, List.range'_append_1]
      congr 1
      omega

/-- A place is as far behind the start as in the list, or further. -/
theorem le_of_unmarked {k n i x : ℕ} (hx : (unmarked len marked k n)[i]? = some x) :
    k * len + i ≤ x := by
  induction n generalizing k i with
  | zero => cases hx
  | succ n ih =>
    rw [unmarked] at hx
    have hblock : (k + 1) * len = k * len + len := Nat.succ_mul k len
    cases hk : marked k with
    | true =>
      rw [hk, if_pos rfl, List.nil_append] at hx
      have := ih hx
      omega
    | false =>
      rw [hk, if_neg Bool.false_ne_true] at hx
      by_cases hi : i < len
      · rw [List.getElem?_append_left (by rwa [List.length_range']), List.getElem?_range' hi] at hx
        injection hx with hx
        omega
      · rw [List.getElem?_append_right (by rw [List.length_range']; omega), List.length_range'] at hx
        have := ih hx
        omega

/-- Behind a marked block it is further by a block at least. -/
theorem lt_of_unmarked {k n i x block : ℕ} (hmarked : marked block = true) (hk : k ≤ block)
    (hblock : block * len ≤ k * len + i) (hx : (unmarked len marked k n)[i]? = some x) :
    k * len + i + len ≤ x := by
  induction n generalizing k i with
  | zero => cases hx
  | succ n ih =>
    rw [unmarked] at hx
    have hnext : (k + 1) * len = k * len + len := Nat.succ_mul k len
    cases hfree : marked k with
    | true =>
      rw [hfree, if_pos rfl, List.nil_append] at hx
      have := le_of_unmarked hx
      omega
    | false =>
      have hne : k ≠ block := by
        rintro rfl
        rw [hmarked] at hfree
        cases hfree
      have hle : (k + 1) * len ≤ block * len := Nat.mul_le_mul_right len (by omega)
      rw [hfree, if_neg Bool.false_ne_true,
        List.getElem?_append_right (by rw [List.length_range']; omega), List.length_range'] at hx
      have := ih (by omega) (by omega) hx
      omega

/-- All blocks are marked, or one of them is the first that is not. -/
theorem all_marked_or_first (marked : ℕ → Bool) (k n : ℕ) :
    (∀ i, k ≤ i → i < k + n → marked i = true) ∨
      ∃ i, k ≤ i ∧ i < k + n ∧ marked i = false ∧ ∀ j, k ≤ j → j < i → marked j = true := by
  induction n generalizing k with
  | zero => exact Or.inl fun i hi hlt => by omega
  | succ n ih =>
    cases hk : marked k with
    | false => exact Or.inr ⟨k, le_rfl, by omega, hk, fun j hj hlt => by omega⟩
    | true =>
      have hcons {i : ℕ} (hi : k ≤ i) (hafter : k + 1 ≤ i → marked i = true) : marked i = true := by
        rcases Nat.eq_or_lt_of_le hi with rfl | hlt
        · exact hk
        · exact hafter hlt
      rcases ih (k + 1) with hall | ⟨i, hi, hlt, hfree, hbefore⟩
      · exact Or.inl fun i hi hlt => hcons hi fun h => hall i h (by omega)
      · exact Or.inr ⟨i, by omega, by omega, hfree, fun j hj hlt =>
          hcons hj fun h => hbefore j h hlt⟩

theorem le_walked (k n whole : ℕ) : k ≤ walked marked k n whole := by
  induction n generalizing k whole with
  | zero => exact le_rfl
  | succ n ih =>
    cases whole with
    | zero => exact le_rfl
    | succ whole => exact le_trans (Nat.le_succ k) (ih (k + 1) _)

end Iot7688.Lib
