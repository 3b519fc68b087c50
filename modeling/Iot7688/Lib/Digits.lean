import Iot7688.Lib.Memory

/-!
The number whose digits to the base 256 are the first bytes of a memory, the most
significant first, and the bits of a memory in that order. A number that is loaded from
bytes has their bits.
-/
namespace Iot7688.Lib

/-- A statement about bytes can be checked for all of them. -/
theorem forall_byte {P : Byte → Prop} (h : ∀ x : BitVec 8, P ⟨x⟩) (b : Byte) : P b := h b.toBitVec

def beValue (m : Mem) : ℕ → ℕ
  | 0 => 0
  | n + 1 => beValue m n * 2 ^ 8 + (m n).toNat

variable {m m' : Mem} {k n : ℕ}

theorem beValue_lt (m : Mem) (n : ℕ) : beValue m n < 2 ^ (8 * n) := by
  induction n with
  | zero => exact Nat.one_pos
  | succ n ih =>
    have hbyte := (m n).toNat_lt
    rw [beValue, Nat.mul_succ, Nat.pow_add]
    omega

theorem beValue_congr (h : ∀ i, i < n → m i = m' i) : beValue m n = beValue m' n := by
  induction n with
  | zero => rfl
  | succ n ih => rw [beValue, beValue, h n (Nat.lt_succ_self n), ih fun i hi => h i (Nat.lt_succ_of_lt hi)]

theorem beValue_zero (n : ℕ) : beValue (fun _ => 0) n = 0 := by
  induction n with
  | zero => rfl
  | succ n ih =>
    rw [beValue, ih]
    rfl

/-- The bytes are the digits. -/
theorem beValue_inj : beValue m n = beValue m' n ↔ ∀ i, i < n → m i = m' i := by
  refine ⟨fun h => ?_, beValue_congr⟩
  induction n with
  | zero => exact fun i hi => absurd hi (Nat.not_lt_zero i)
  | succ n ih =>
    have hbyte := (m n).toNat_lt
    have hbyte' := (m' n).toNat_lt
    rw [beValue, beValue] at h
    intro i hi
    obtain rfl | hi := Nat.eq_or_lt_of_le (Nat.le_of_lt_succ hi)
    · exact UInt8.toNat_inj.mp (by omega)
    · exact ih (by omega) i hi

/-- The first digits of a number. -/
theorem beValue_div (m : Mem) (h : k ≤ n) : beValue m n / 2 ^ (8 * (n - k)) = beValue m k := by
  induction n, h using Nat.le_induction with
  | base => rw [Nat.sub_self, Nat.mul_zero, Nat.pow_zero, Nat.div_one]
  | succ n hkn ih =>
    have hbyte := (m n).toNat_lt
    have hdigit : (beValue m n * 2 ^ 8 + (m n).toNat) / 2 ^ 8 = beValue m n := by omega
    rw [beValue, Nat.succ_sub hkn, Nat.mul_succ, Nat.pow_add, Nat.mul_comm (2 ^ (8 * (n - k))),
      ← Nat.div_div_eq_div_mul, hdigit, ih]

/-- Digits behind the first ones that are the same in two numbers do not count. -/
theorem beValue_suffix (hkn : k ≤ n) (h : ∀ i, k ≤ i → i < n → m i = m' i) :
    beValue m n + beValue m' k * 2 ^ (8 * (n - k)) =
      beValue m' n + beValue m k * 2 ^ (8 * (n - k)) := by
  induction n, hkn using Nat.le_induction with
  | base =>
    rw [Nat.sub_self, Nat.mul_zero, Nat.pow_zero, Nat.mul_one, Nat.mul_one]
    exact Nat.add_comm _ _
  | succ n hkn ih =>
    have hrest := ih fun i hki hi => h i hki (Nat.lt_succ_of_lt hi)
    have hpow : 2 ^ (8 * (n + 1 - k)) = 2 ^ (8 * (n - k)) * 2 ^ 8 := by
      rw [Nat.succ_sub hkn, Nat.mul_succ, Nat.pow_add]
    rw [beValue, beValue, h n hkn (Nat.lt_succ_self n), hpow, ← Nat.mul_assoc, ← Nat.mul_assoc]
    omega

theorem beValue_zeros (hkn : k ≤ n) (h : ∀ i, k ≤ i → i < n → m i = 0) :
    beValue m n = beValue m k * 2 ^ (8 * (n - k)) := by
  induction n, hkn using Nat.le_induction with
  | base => rw [Nat.sub_self, Nat.mul_zero, Nat.pow_zero, Nat.mul_one]
  | succ n hkn ih =>
    have hzero : (0 : Byte).toNat = 0 := rfl
    rw [beValue, h n hkn (Nat.lt_succ_self n), ih fun i hki hi => h i hki (Nat.lt_succ_of_lt hi),
      Nat.succ_sub hkn, Nat.mul_succ, Nat.pow_add, Nat.mul_assoc, hzero]
    rfl

/-- The digits of a number make it up again. -/
theorem beValue_digits {v : ℕ} (hv : v < 2 ^ (8 * (n + 1))) (hk : k ≤ n + 1) :
    beValue (fun i => (v / 2 ^ (8 * (n - i)) % 2 ^ 8).toUInt8) k = v / 2 ^ (8 * (n + 1 - k)) := by
  induction k with
  | zero => exact (Nat.div_eq_of_lt hv).symm
  | succ k ih =>
    have hplace : 8 * (n + 1 - k) = 8 * (n - k) + 8 := by omega
    have hbyte : (v / 2 ^ (8 * (n - k)) % 2 ^ 8).toUInt8.toNat = v / 2 ^ (8 * (n - k)) % 2 ^ 8 := by
      rw [Nat.toUInt8, UInt8.toNat_ofNat', Nat.mod_mod]
    rw [beValue, ih (by omega), hbyte, hplace, Nat.pow_add, ← Nat.div_div_eq_div_mul,
      Nat.add_sub_add_right]
    omega

/-- Cutting bits off the last digit. -/
theorem beValue_succ_div (m : Mem) (n : ℕ) (hk : k ≤ 8) :
    beValue m (n + 1) / 2 ^ k = beValue m n * 2 ^ (8 - k) + (m n).toNat / 2 ^ k := by
  have hpow : 2 ^ 8 = 2 ^ (8 - k) * 2 ^ k := by
    rw [← Nat.pow_add, Nat.sub_add_cancel hk]
  rw [beValue, hpow, ← Nat.mul_assoc, Nat.mul_comm, Nat.mul_add_div (Nat.two_pow_pos k)]

theorem digit_div_lt (b : Byte) (hk : k ≤ 8) : b.toNat / 2 ^ k < 2 ^ (8 - k) := by
  rw [Nat.div_lt_iff_lt_mul (Nat.two_pow_pos k), ← Nat.pow_add, Nat.sub_add_cancel hk]
  exact b.toNat_lt

/-- The first bits are equal in the digits in front and in the last one. -/
theorem beValue_succ_div_inj (hk : k ≤ 8) : beValue m (n + 1) / 2 ^ k = beValue m' (n + 1) / 2 ^ k ↔
    (∀ i, i < n → m i = m' i) ∧ (m n).toNat / 2 ^ k = (m' n).toNat / 2 ^ k := by
  have hlt := digit_div_lt (m n) hk
  have hlt' := digit_div_lt (m' n) hk
  rw [beValue_succ_div m n hk, beValue_succ_div m' n hk, ← beValue_inj]
  constructor
  · intro h
    have hfront := congrArg (· / 2 ^ (8 - k)) h
    simp only [Nat.mul_comm _ (2 ^ (8 - k)), Nat.mul_add_div (Nat.two_pow_pos _), Nat.div_eq_of_lt hlt,
      Nat.div_eq_of_lt hlt', Nat.add_zero] at hfront
    rw [hfront] at h
    exact ⟨hfront, Nat.add_left_cancel h⟩
  · rintro ⟨hfront, hlast⟩
    rw [hfront, hlast]

/-- Clearing the digits behind the first ones. -/
theorem beValue_cut (m : Mem) (hkn : k ≤ n) : beValue (fun x => if k ≤ x then 0 else m x) n =
    beValue m n / 2 ^ (8 * (n - k)) * 2 ^ (8 * (n - k)) := by
  rw [beValue_zeros hkn fun i hi _ => if_pos hi, beValue_div m hkn]
  congr 1
  exact beValue_congr fun i hi => if_neg (not_le.mpr hi)

/-- Clearing the digits behind a digit, and its last bits. -/
theorem beValue_cut_last (m : Mem) (hkn : k + 1 ≤ n) {j : ℕ} (hj : j ≤ 8) {d : Byte}
    (hd : d.toNat = (m k).toNat / 2 ^ j * 2 ^ j) :
    beValue (Function.update (fun x => if k + 1 ≤ x then 0 else m x) k d) n =
      beValue m n / 2 ^ (8 * (n - (k + 1)) + j) * 2 ^ (8 * (n - (k + 1)) + j) := by
  have hpow : 2 ^ 8 = 2 ^ (8 - j) * 2 ^ j := by
    rw [← Nat.pow_add, Nat.sub_add_cancel hj]
  have hzeros : ∀ i, k + 1 ≤ i → i < n →
      Function.update (fun x => if k + 1 ≤ x then 0 else m x) k d i = 0 := fun i hi _ => by
    rw [Function.update_of_ne (by omega), if_pos hi]
  have hfront : beValue (Function.update (fun x => if k + 1 ≤ x then 0 else m x) k d) k =
      beValue m k := beValue_congr fun i hi => by
    rw [Function.update_of_ne (by omega), if_neg (by omega)]
  have hlast : beValue (Function.update (fun x => if k + 1 ≤ x then 0 else m x) k d) (k + 1) =
      beValue m (k + 1) / 2 ^ j * 2 ^ j := by
    rw [beValue, hfront, Function.update_self, beValue_succ_div m k hj, hd, Nat.add_mul, Nat.mul_assoc,
      ← hpow]
  rw [beValue_zeros hkn hzeros, hlast, Nat.pow_add, ← Nat.div_div_eq_div_mul, beValue_div m hkn,
    Nat.mul_assoc, Nat.mul_comm (2 ^ j)]

/-- The number of the last i of w bytes, built from the end as a carry runs. -/
def lastValue (m : Mem) (w : ℕ) : ℕ → ℕ
  | 0 => 0
  | i + 1 => (m (w - 1 - i)).toNat * 2 ^ (8 * i) + lastValue m w i

variable {w i : ℕ}

theorem beValue_eq_lastValue (m : Mem) (hi : i ≤ w) :
    beValue m w = beValue m (w - i) * 2 ^ (8 * i) + lastValue m w i := by
  induction i with
  | zero => rw [lastValue, Nat.mul_zero, Nat.pow_zero, Nat.mul_one, Nat.add_zero, Nat.sub_zero]
  | succ i ih =>
    have hsplit : w - i = w - 1 - i + 1 := by omega
    have hplace : w - (i + 1) = w - 1 - i := by omega
    rw [ih (Nat.le_of_succ_le hi), hsplit, beValue, hplace, lastValue]
    ring

theorem lastValue_self (m : Mem) (w : ℕ) : lastValue m w w = beValue m w := by
  rw [beValue_eq_lastValue m le_rfl, Nat.sub_self, beValue, Nat.zero_mul, Nat.zero_add]

/-- A byte in front of the last ones does not count. -/
theorem lastValue_update (m : Mem) (hk : k + i < w) (d : Byte) :
    lastValue (Function.update m k d) w i = lastValue m w i := by
  induction i with
  | zero => rfl
  | succ i ih => rw [lastValue, lastValue, ih (by omega), Function.update_of_ne (by omega)]

theorem lastValue_update_succ (m : Mem) (hi : i < w) (d : Byte) :
    lastValue (Function.update m (w - 1 - i) d) w (i + 1) = d.toNat * 2 ^ (8 * i) + lastValue m w i := by
  rw [lastValue, Function.update_self, lastValue_update m (by omega)]

/-- A digit of a sum, with the carry into it and the carry out of it. -/
theorem carry_step (hi : i < w) {d : Byte} {s c c' v : ℕ} (hd : d.toNat + c' * 2 ^ 8 = s + c)
    (h : lastValue m w i + c * 2 ^ (8 * i) = v) :
    lastValue (Function.update m (w - 1 - i) d) w (i + 1) + c' * 2 ^ (8 * (i + 1)) =
      s * 2 ^ (8 * i) + v := by
  rw [lastValue_update_succ m hi, ← h, Nat.mul_succ, Nat.pow_add]
  calc d.toNat * 2 ^ (8 * i) + lastValue m w i + c' * (2 ^ (8 * i) * 2 ^ 8)
      = (d.toNat + c' * 2 ^ 8) * 2 ^ (8 * i) + lastValue m w i := by ring
    _ = s * 2 ^ (8 * i) + (lastValue m w i + c * 2 ^ (8 * i)) := by
      rw [hd]
      ring

/-- A digit of a difference, with the borrow from it and the borrow for it. -/
theorem borrow_step (hi : i < w) {d : Byte} {s t c c' u v : ℕ} (hd : d.toNat + (s + c) = t + c' * 2 ^ 8)
    (h : lastValue m w i + v = u + c * 2 ^ (8 * i)) :
    lastValue (Function.update m (w - 1 - i) d) w (i + 1) + (s * 2 ^ (8 * i) + v) =
      t * 2 ^ (8 * i) + u + c' * 2 ^ (8 * (i + 1)) := by
  rw [lastValue_update_succ m hi, Nat.mul_succ, Nat.pow_add]
  calc d.toNat * 2 ^ (8 * i) + lastValue m w i + (s * 2 ^ (8 * i) + v)
      = (d.toNat + s) * 2 ^ (8 * i) + (lastValue m w i + v) := by ring
    _ = (d.toNat + (s + c)) * 2 ^ (8 * i) + u := by
      rw [h]
      ring
    _ = t * 2 ^ (8 * i) + u + c' * (2 ^ (8 * i) * 2 ^ 8) := by
      rw [hd]
      ring

def bit (m : Mem) (i : ℕ) : Bool := (m (i / 8)).toNat.testBit (7 - i % 8)

/-- The number of n bits from a place on. -/
def bitField (m : Mem) (i : ℕ) : ℕ → ℕ
  | 0 => 0
  | n + 1 => 2 * bitField m i n + (bit m (i + n)).toNat

/-- The n bytes of a number, the most significant first. -/
def beBytes (n v : ℕ) : Mem := fun i => (v / 2 ^ (8 * (n - 1 - i)) % 2 ^ 8).toUInt8

variable {m m' : Mem} {n i j v : ℕ}

theorem bit_byte (m : Mem) (k : ℕ) (hj : j < 8) : bit m (8 * k + j) = (m k).toNat.testBit (7 - j) := by
  rw [bit, Nat.mul_add_div (by decide), Nat.div_eq_of_lt hj, Nat.add_zero, Nat.mul_add_mod,
    Nat.mod_eq_of_lt hj]

theorem bit_congr (h : m (i / 8) = m' (i / 8)) : bit m i = bit m' i := by
  rw [bit, bit, h]

theorem bit_shift (m : Mem) (k i : ℕ) : bit (m.shift k) i = bit m (8 * k + i) := by
  rw [bit, bit, Mem.shift_apply, Nat.mul_add_div (by decide), Nat.mul_add_mod]

theorem bit_copy (m src : Mem) (k i : ℕ) :
    bit (m.copy 0 k src) i = if i < 8 * k then bit src i else bit m i := by
  split
  · exact bit_congr (Mem.copy_start m src (by omega))
  · exact bit_congr (Mem.copy_outside m src (by omega))

theorem testBit_beValue (m : Mem) (n j : ℕ) :
    (beValue m n).testBit j = (decide (j < 8 * n) && bit m (8 * n - 1 - j)) := by
  induction n generalizing j with
  | zero => simp [beValue]
  | succ n ih =>
    have hbyte : (m n).toNat < 2 ^ 8 := (m n).toNat_lt
    rw [beValue, Nat.mul_comm, Nat.testBit_two_pow_mul_add _ hbyte]
    by_cases hj : j < 8
    · have hplace : 8 * (n + 1) - 1 - j = 8 * n + (7 - j) := by omega
      have hback : 7 - (7 - j) = j := by omega
      rw [if_pos hj, decide_eq_true (by omega), Bool.true_and, hplace, bit_byte m n (by omega), hback]
    · have hplace : 8 * (n + 1) - 1 - j = 8 * n - 1 - (j - 8) := by omega
      have hrange : j - 8 < 8 * n ↔ j < 8 * (n + 1) := by omega
      rw [if_neg hj, ih, decide_eq_decide.mpr hrange, hplace]

theorem bit_beBytes (v : ℕ) (hi : i < 8 * n) : bit (beBytes n v) i = v.testBit (8 * n - 1 - i) := by
  have hplace : 7 - i % 8 + 8 * (n - 1 - i / 8) = 8 * n - 1 - i := by omega
  rw [bit, beBytes, Nat.toUInt8, UInt8.toNat_ofNat', Nat.mod_mod, Nat.testBit_mod_two_pow,
    Nat.testBit_div_two_pow, decide_eq_true (by omega), Bool.true_and, hplace]

theorem beValue_beBytes (hv : v < 2 ^ (8 * n)) : beValue (beBytes n v) n = v := by
  apply Nat.eq_of_testBit_eq
  intro j
  rw [testBit_beValue]
  by_cases hj : j < 8 * n
  · have hplace : 8 * n - 1 - (8 * n - 1 - j) = j := by omega
    rw [decide_eq_true hj, Bool.true_and, bit_beBytes v (by omega), hplace]
  · have hlarge : v < 2 ^ j := hv.trans_le (Nat.pow_le_pow_right (by decide) (by omega))
    rw [decide_eq_false hj, Bool.false_and, Nat.testBit_lt_two_pow hlarge]

/-- A window of n bytes, shifted to the left, begins inside its first byte. -/
theorem bit_shiftLeft (m : Mem) (n s : ℕ) (hi : i < 8 * n) :
    bit (beBytes n (beValue m n * 2 ^ s % 2 ^ (8 * n))) i =
      (decide (i + s < 8 * n) && bit m (i + s)) := by
  rw [bit_beBytes _ hi, Nat.testBit_mod_two_pow, Nat.testBit_mul_two_pow, testBit_beValue,
    decide_eq_true (by omega), Bool.true_and]
  by_cases h : i + s < 8 * n
  · have hplace : 8 * n - 1 - (8 * n - 1 - i - s) = i + s := by omega
    rw [decide_eq_true h, decide_eq_true (by omega), decide_eq_true (by omega), hplace,
      Bool.true_and]
  · rw [decide_eq_false h, decide_eq_false (by omega), Bool.false_and, Bool.false_and]

/-- The bits of a number, moved to the right. -/
theorem bit_shiftRight (m : Mem) (n s : ℕ) (hi : i < 8 * n) :
    bit (beBytes n (beValue m n / 2 ^ s)) i = (decide (s ≤ i) && bit m (i - s)) := by
  rw [bit_beBytes _ hi, Nat.testBit_div_two_pow, testBit_beValue]
  by_cases h : s ≤ i
  · have hplace : 8 * n - 1 - (8 * n - 1 - i + s) = i - s := by omega
    rw [decide_eq_true h, decide_eq_true (by omega), hplace]
  · rw [decide_eq_false h, decide_eq_false (by omega), Bool.false_and, Bool.false_and]

theorem bitField_lt (m : Mem) (i n : ℕ) : bitField m i n < 2 ^ n := by
  induction n with
  | zero => exact Nat.one_pos
  | succ n ih =>
    have hone := Bool.toNat_le (bit m (i + n))
    rw [bitField, Nat.pow_succ]
    omega

theorem testBit_bitField (m : Mem) (i n j : ℕ) :
    (bitField m i n).testBit j = (decide (j < n) && bit m (i + n - 1 - j)) := by
  induction n generalizing j with
  | zero => simp [bitField]
  | succ n ih =>
    rw [bitField]
    cases j with
    | zero =>
      have hplace : i + (n + 1) - 1 - 0 = i + n := by omega
      rw [hplace, Nat.testBit_zero, decide_eq_true (Nat.succ_pos n), Bool.true_and]
      cases bit m (i + n) with
      | false => simp
      | true => simp
    | succ j =>
      have hplace : i + (n + 1) - 1 - (j + 1) = i + n - 1 - j := by omega
      have hhalf : (2 * bitField m i n + (bit m (i + n)).toNat) / 2 = bitField m i n := by
        have hone := Bool.toNat_le (bit m (i + n))
        omega
      rw [Nat.testBit_succ, hhalf, ih, hplace, decide_eq_decide.mpr Nat.succ_lt_succ_iff.symm]

end Iot7688.Lib
