import Mathlib.Data.Nat.Bitwise

/-!
Fields that are packed into a register: a field is read with a shift and a mask, and it is
replaced by clearing its bits and putting others there. Replacing a field keeps the ones
that share no bit with it. Tables hold several entries of one width in each register.
-/
namespace Iot7688.Lib.Register

variable {n s s' w w' : ℕ} {r v m m' : BitVec n}

/-- The field under the mask `m` at bit `s`. -/
def field (r : BitVec n) (s : ℕ) (m : BitVec n) : BitVec n := (r >>> s) &&& m

/-- The register with the field replaced. -/
def put (r : BitVec n) (s : ℕ) (m v : BitVec n) : BitVec n :=
  (r &&& ~~~(m <<< s)) ||| ((v &&& m) <<< s)

/-- A mask of `w` bits. -/
def ones (n w : ℕ) : BitVec n := BitVec.ofNat n (2 ^ w - 1)

theorem getLsbD_ones (i : ℕ) : (ones n w).getLsbD i = (decide (i < n) && decide (i < w)) := by
  rw [ones, BitVec.getLsbD_ofNat, Nat.testBit_two_pow_sub_one]

theorem field_put_same (h : ∀ i, m.getLsbD i = true → s + i < n) :
    field (put r s m v) s m = v &&& m := by
  apply BitVec.eq_of_getLsbD_eq
  intro i hi
  unfold field put
  rw [BitVec.getLsbD_and, BitVec.getLsbD_and, BitVec.getLsbD_ushiftRight, BitVec.getLsbD_or,
    BitVec.getLsbD_and, BitVec.getLsbD_not, BitVec.getLsbD_shiftLeft, BitVec.getLsbD_shiftLeft,
    BitVec.getLsbD_and, Nat.add_sub_cancel_left]
  cases hm : m.getLsbD i with
  | false => simp
  | true =>
    have hlt := h i hm
    have hnot : ¬s + i < s := by omega
    simp [hlt, hnot]

theorem put_zero : put 0#n s m v = (v &&& m) <<< s := by
  unfold put
  rw [BitVec.zero_and, BitVec.zero_or]

theorem getLsbD_put_of_not {j : ℕ} (h : ¬(s ≤ j ∧ m.getLsbD (j - s) = true)) :
    (put r s m v).getLsbD j = r.getLsbD j := by
  unfold put
  rw [BitVec.getLsbD_or, BitVec.getLsbD_and, BitVec.getLsbD_not, BitVec.getLsbD_shiftLeft,
    BitVec.getLsbD_shiftLeft, BitVec.getLsbD_and]
  by_cases hj : j < n
  · by_cases hs : s ≤ j
    · have hm : m.getLsbD (j - s) = false := Bool.eq_false_of_not_eq_true fun hm => h ⟨hs, hm⟩
      simp [hm, hj]
    · simp [hj, Nat.lt_of_not_le hs]
  · rw [BitVec.getLsbD_of_ge r j (Nat.le_of_not_lt hj)]
    simp [hj]

theorem field_put_other
    (h : ∀ i j, m.getLsbD i = true → m'.getLsbD j = true → s + i ≠ s' + j) :
    field (put r s m v) s' m' = field r s' m' := by
  apply BitVec.eq_of_getLsbD_eq
  intro j _
  unfold field
  rw [BitVec.getLsbD_and, BitVec.getLsbD_and, BitVec.getLsbD_ushiftRight,
    BitVec.getLsbD_ushiftRight]
  cases hm' : m'.getLsbD j with
  | false => simp
  | true =>
    rw [getLsbD_put_of_not]
    rintro ⟨hs, hm⟩
    exact h _ j hm hm' (by omega)

/-- Fields of `w` and `w'` bits that lie apart. -/
theorem field_put_apart (h : s + w ≤ s' ∨ s' + w' ≤ s) :
    field (put r s (ones n w) v) s' (ones n w') = field r s' (ones n w') := by
  apply field_put_other
  intro i j hi hj
  rw [getLsbD_ones, Bool.and_eq_true, decide_eq_true_eq, decide_eq_true_eq] at hi hj
  omega

theorem field_put_here (h : s + w ≤ n) :
    field (put r s (ones n w) v) s (ones n w) = v &&& ones n w := by
  apply field_put_same
  intro i hi
  rw [getLsbD_ones, Bool.and_eq_true, decide_eq_true_eq, decide_eq_true_eq] at hi
  omega

/-- A value that fits into the mask is not changed by it. -/
theorem and_ones (h : v.toNat < 2 ^ w) : v &&& ones n w = v := by
  apply BitVec.eq_of_getLsbD_eq
  intro i hi
  rw [BitVec.getLsbD_and, getLsbD_ones]
  by_cases hw : i < w
  · simp [hi, hw]
  · have hzero : v.getLsbD i = false := by
      rw [BitVec.getLsbD, Nat.testBit_lt_two_pow]
      exact h.trans_le (Nat.pow_le_pow_right (by decide) (Nat.le_of_not_lt hw))
    simp [hzero]

theorem field_or : field (r ||| v) s m = field r s m ||| field v s m := by
  apply BitVec.eq_of_getLsbD_eq
  intro i _
  unfold field
  rw [BitVec.getLsbD_or, BitVec.getLsbD_and, BitVec.getLsbD_and, BitVec.getLsbD_and,
    BitVec.getLsbD_ushiftRight, BitVec.getLsbD_ushiftRight, BitVec.getLsbD_ushiftRight,
    BitVec.getLsbD_or, Bool.and_or_distrib_right]

/-- The field in which all bits of the mask are set. -/
theorem field_or_mask : field r s m ||| m = m := by
  apply BitVec.eq_of_getLsbD_eq
  intro i _
  unfold field
  rw [BitVec.getLsbD_or, BitVec.getLsbD_and]
  cases m.getLsbD i with
  | true => exact Bool.or_true _
  | false => simp

section

variable {regs : ℕ → BitVec n} {base step k i j r : ℕ}

/-- Entry `i` of a table whose registers hold `k` entries of `w` bits each; the registers
lie `step` apart from `base` on. -/
def entry (regs : ℕ → BitVec n) (base step k w i : ℕ) : BitVec n :=
  field (regs (base + step * (i / k))) (w * (i % k)) (ones n w)

/-- The registers with entry `i` of such a table replaced. -/
def putEntry (regs : ℕ → BitVec n) (base step k w i : ℕ) (v : BitVec n) : ℕ → BitVec n :=
  Function.update regs (base + step * (i / k))
    (put (regs (base + step * (i / k))) (w * (i % k)) (ones n w) v)

theorem putEntry_of_ne (h : r ≠ base + step * (i / k)) :
    putEntry regs base step k w i v r = regs r :=
  Function.update_of_ne h _ _

theorem entry_putEntry (hk : 0 < k) (hstep : 0 < step) (hfits : w * k ≤ n) :
    entry (putEntry regs base step k w i v) base step k w j =
      if j = i then v &&& ones n w else entry regs base step k w j := by
  have hi := Nat.mod_lt i hk
  have hj := Nat.mod_lt j hk
  by_cases hword : j / k = i / k
  · unfold entry putEntry
    rw [hword, Function.update_self]
    rcases Nat.lt_trichotomy (j % k) (i % k) with hlt | hsame | hgt
    · have hapart : w * (j % k) + w ≤ w * (i % k) := Nat.mul_le_mul_left w hlt
      have hother : j ≠ i := fun h => hlt.ne (congrArg (· % k) h)
      rw [if_neg hother, field_put_apart (Or.inr hapart)]
    · have heq : j = i := by
        rw [← Nat.div_add_mod j k, ← Nat.div_add_mod i k, hword, hsame]
      have hinside : w * (i % k) + w ≤ n := (Nat.mul_le_mul_left w hi).trans hfits
      rw [hsame, if_pos heq, field_put_here hinside]
    · have hapart : w * (i % k) + w ≤ w * (j % k) := Nat.mul_le_mul_left w hgt
      have hother : j ≠ i := fun h => hgt.ne' (congrArg (· % k) h)
      rw [if_neg hother, field_put_apart (Or.inl hapart)]
  · have hother : j ≠ i := fun h => hword (congrArg (· / k) h)
    have hreg : base + step * (j / k) ≠ base + step * (i / k) := fun h =>
      hword (Nat.eq_of_mul_eq_mul_left hstep (Nat.add_left_cancel h))
    rw [if_neg hother, entry, putEntry_of_ne hreg, entry]

end

end Iot7688.Lib.Register
