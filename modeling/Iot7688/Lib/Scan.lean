import Iot7688.Lib.Memory

/-!
Pointers that run over the bytes of a memory. `skip` runs forward and `back`
backward while a test holds, over a given number of bytes at most; on the bytes in
between they are `dropWhile` and `rdropWhile`.
-/
namespace Iot7688.Lib

/-- The bytes from s up to e. -/
def slice (m : Mem) (s e : ℕ) : List Byte := (List.range (e - s)).map fun i => m (s + i)

def skip (p : Byte → Bool) (m : Mem) : ℕ → ℕ → ℕ
  | 0, s => s
  | n + 1, s => if p (m s) then skip p m n (s + 1) else s

/-- The byte in front of the pointer is tested. -/
def back (p : Byte → Bool) (m : Mem) : ℕ → ℕ → ℕ
  | 0, e => e
  | n + 1, e => if p (m (e - 1)) then back p m n (e - 1) else e

variable {p : Byte → Bool} {m : Mem}

theorem slice_length (m : Mem) (s e : ℕ) : (slice m s e).length = e - s := by simp [slice]

theorem slice_getElem (m : Mem) (s e : ℕ) {i : ℕ} (hi : i < (slice m s e).length) :
    (slice m s e)[i] = m (s + i) := by simp [slice]

theorem slice_getElem? (m : Mem) (s e i : ℕ) :
    (slice m s e)[i]? = if i < e - s then some (m (s + i)) else none := by
  split
  · rename_i hi
    have hlen : i < (slice m s e).length := by rwa [slice_length]
    rw [List.getElem?_eq_getElem hlen, slice_getElem]
  · rw [List.getElem?_eq_none]
    rw [slice_length]
    omega

theorem slice_empty (m : Mem) {s e : ℕ} (h : e ≤ s) : slice m s e = [] := by
  unfold slice
  rw [Nat.sub_eq_zero_of_le h]
  rfl

theorem slice_append (m : Mem) {s k e : ℕ} (hk : s ≤ k) (he : k ≤ e) :
    slice m s e = slice m s k ++ slice m k e := by
  refine List.ext_getElem ?_ fun i hi hi' => ?_
  · rw [List.length_append, slice_length, slice_length, slice_length]
    omega
  · rw [slice_getElem, List.getElem_append]
    split
    · rw [slice_getElem]
    · rename_i hge
      rw [slice_length] at hge
      rw [slice_getElem, slice_length]
      congr 1
      omega

theorem slice_congr {m m' : Mem} {s e : ℕ} (h : ∀ i, s ≤ i → i < e → m i = m' i) :
    slice m s e = slice m' s e := by
  refine List.ext_getElem ?_ fun i hi _ => ?_
  · rw [slice_length, slice_length]
  · rw [slice_length] at hi
    rw [slice_getElem, slice_getElem]
    exact h (s + i) (Nat.le_add_right s i) (by omega)

theorem slice_copy (m src : Mem) (dst n : ℕ) :
    slice (m.copy dst n src) dst (dst + n) = slice src 0 n := by
  refine List.ext_getElem ?_ fun i hi _ => ?_
  · rw [slice_length, slice_length]
    omega
  · rw [slice_length] at hi
    rw [slice_getElem, slice_getElem, Nat.zero_add]
    exact Mem.copy_inside m src (by omega)

/-- Known bytes in two parts are those of two slices. -/
theorem slice_split {s e : ℕ} {u v : List Byte} (h : slice m s e = u ++ v) :
    slice m s (s + u.length) = u ∧ slice m (s + u.length) e = v := by
  have hlen := congrArg List.length h
  rw [slice_length, List.length_append] at hlen
  rcases Nat.eq_zero_or_pos u.length with hzero | hpos
  · rw [List.length_eq_zero_iff.mp hzero, List.nil_append] at h
    rw [hzero, List.length_eq_zero_iff.mp hzero, Nat.add_zero, slice_empty m (le_refl s)]
    exact ⟨rfl, h⟩
  · rw [slice_append m (Nat.le_add_right s u.length) (by omega)] at h
    exact List.append_inj h (by rw [slice_length, Nat.add_sub_cancel_left])

theorem slice_cons (m : Mem) {s e : ℕ} (h : s < e) : slice m s e = m s :: slice m (s + 1) e := by
  have hone : slice m s (s + 1) = [m s] := by simp [slice]
  rw [slice_append m (Nat.le_succ s) h, hone]
  rfl

theorem slice_concat (m : Mem) {s e : ℕ} (h : s ≤ e) :
    slice m s (e + 1) = slice m s e ++ [m e] := by
  have hone : slice m e (e + 1) = [m e] := by simp [slice]
  rw [slice_append m h (Nat.le_succ e), hone]

/-- A part of a slice is an infix of it. -/
theorem slice_infix (m : Mem) {s k l e : ℕ} (hs : s ≤ k) (hl : k ≤ l) (he : l ≤ e) :
    slice m k l <:+: slice m s e := by
  refine ⟨slice m s k, slice m l e, ?_⟩
  rw [← slice_append m hs hl, ← slice_append m (hs.trans hl) he]

theorem le_skip (n s : ℕ) : s ≤ skip p m n s := by
  induction n generalizing s with
  | zero => exact le_refl s
  | succ n ih =>
    unfold skip
    split
    · exact (Nat.le_succ s).trans (ih (s + 1))
    · exact le_refl s

theorem skip_le (n s : ℕ) : skip p m n s ≤ s + n := by
  induction n generalizing s with
  | zero => exact le_refl s
  | succ n ih =>
    unfold skip
    split
    · have := ih (s + 1)
      omega
    · omega

theorem skip_all (n s : ℕ) {i : ℕ} (hi : s ≤ i) (hlt : i < skip p m n s) : p (m i) = true := by
  induction n generalizing s with
  | zero => exact absurd hlt (not_lt.mpr hi)
  | succ n ih =>
    unfold skip at hlt
    split at hlt
    · rename_i hs
      rcases Nat.eq_or_lt_of_le hi with rfl | hi
      · exact hs
      · exact ih (s + 1) hi hlt
    · exact absurd hlt (not_lt.mpr hi)

/-- Where the pointer stops before the end, the test fails. -/
theorem skip_stop (n s : ℕ) (h : skip p m n s < s + n) : p (m (skip p m n s)) = false := by
  induction n generalizing s with
  | zero => exact absurd h (by simp [skip])
  | succ n ih =>
    unfold skip at h ⊢
    split at h
    · rename_i hs
      rw [if_pos hs]
      exact ih (s + 1) (by omega)
    · rename_i hs
      rw [if_neg hs]
      simpa using hs

/-- The pointer is determined by what it passed and where it stopped. -/
theorem skip_eq (n s : ℕ) {r : ℕ} (hs : s ≤ r) (hr : r ≤ s + n)
    (hall : ∀ i, s ≤ i → i < r → p (m i) = true) (hstop : r < s + n → p (m r) = false) :
    skip p m n s = r := by
  rcases Nat.lt_trichotomy (skip p m n s) r with hlt | heq | hgt
  · have hfalse := skip_stop n s (show skip p m n s < s + n by omega)
    rw [hall _ (le_skip n s) hlt] at hfalse
    exact absurd hfalse (by simp)
  · exact heq
  · have hle : skip p m n s ≤ s + n := skip_le n s
    have htrue := skip_all n s hs hgt
    rw [hstop (by omega)] at htrue
    exact absurd htrue (by simp)

theorem mem_slice {s e : ℕ} {b : Byte} (h : b ∈ slice m s e) : ∃ i, s ≤ i ∧ i < e ∧ m i = b := by
  unfold slice at h
  obtain ⟨i, hi, rfl⟩ := List.mem_map.mp h
  have hlt := List.mem_range.mp hi
  exact ⟨s + i, by omega, by omega, rfl⟩

/-- Where the pointer stops at e or before, the rest up to e is what is left. -/
theorem slice_skip (n s : ℕ) {e : ℕ} (hle : skip p m n s ≤ e) (he : e ≤ s + n) :
    slice m (skip p m n s) e = (slice m s e).dropWhile p := by
  have hpassed : ∀ b ∈ slice m s (skip p m n s), p b = true := by
    intro b hb
    obtain ⟨i, hi, hlt, rfl⟩ := mem_slice hb
    exact skip_all n s hi hlt
  rw [slice_append m (le_skip n s) hle, List.dropWhile_append_of_pos hpassed]
  rcases Nat.eq_or_lt_of_le hle with heq | hlt
  · rw [slice_empty m heq.ge, List.dropWhile_nil]
  · rw [slice_cons m hlt, List.dropWhile_cons_of_neg]
    rw [skip_stop n s (show skip p m n s < s + n by omega)]
    exact Bool.false_ne_true

/-- Where it runs past e, nothing is left. -/
theorem dropWhile_of_skip (n s : ℕ) {e : ℕ} (hlt : e < skip p m n s) :
    (slice m s e).dropWhile p = [] := by
  rw [List.dropWhile_eq_nil_iff]
  intro b hb
  obtain ⟨i, hi, hie, rfl⟩ := mem_slice hb
  exact skip_all n s hi (hie.trans hlt)

theorem back_le (n e : ℕ) : back p m n e ≤ e := by
  induction n generalizing e with
  | zero => exact le_refl e
  | succ n ih =>
    unfold back
    split
    · exact (ih (e - 1)).trans (Nat.sub_le e 1)
    · exact le_refl e

theorem le_back (n s : ℕ) : s ≤ back p m n (s + n) := by
  induction n with
  | zero => exact le_refl s
  | succ n ih =>
    unfold back
    split
    · exact ih
    · omega

theorem slice_back (n s : ℕ) :
    slice m s (back p m n (s + n)) = (slice m s (s + n)).rdropWhile p := by
  induction n with
  | zero =>
    show slice m s s = (slice m s s).rdropWhile p
    rw [slice_empty m (le_refl s), List.rdropWhile_nil]
  | succ n ih =>
    rw [show s + (n + 1) = s + n + 1 by omega, slice_concat m (Nat.le_add_right s n),
      List.rdropWhile_concat]
    unfold back
    rw [Nat.add_sub_cancel]
    split
    · exact ih
    · rw [slice_concat m (Nat.le_add_right s n)]

end Iot7688.Lib
