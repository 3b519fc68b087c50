import Mathlib.Data.Nat.Bitwise
import Mathlib.Data.Nat.ModEq

/-!
Rings addressed by free-running positions. A window shorter than the ring
has distinct slots, a power of two turns the modulo into a mask, and the
distance of two positions of a window is read off their slots.
-/
namespace Iot7688.Lib.Ring

/-- The positions of a window have distinct slots. -/
theorem slot_inj {n a b : ℕ} (hab : a ≤ b) (hwin : b < a + n) (h : a % n = b % n) : a = b := by
  have hzero := Nat.sub_mod_eq_zero_of_mod_eq h.symm
  rw [Nat.mod_eq_of_lt (by omega)] at hzero
  omega

theorem slot_ne {n a b : ℕ} (hab : a < b) (hwin : b < a + n) : a % n ≠ b % n := by
  intro h
  have := slot_inj (le_of_lt hab) hwin h
  omega

theorem next_slot {k : ℕ} (a : ℕ) : (a % 2 ^ k + 1) &&& (2 ^ k - 1) = (a + 1) % 2 ^ k := by
  rw [Nat.and_two_pow_sub_one_eq_mod, Nat.mod_add_mod]

/-- How far a slot has moved. -/
theorem slot_gap {m d : ℕ} (n : ℕ) (hd : d < m) : ((n + d) % m + m - n % m) % m = d := by
  have hr := Nat.mod_lt n (Nat.zero_lt_of_lt hd)
  rw [Nat.add_mod n d, Nat.mod_eq_of_lt hd]
  by_cases hwrap : n % m + d < m
  · rw [Nat.mod_eq_of_lt hwrap, show n % m + d + m - n % m = d + m by omega,
      Nat.add_mod_right, Nat.mod_eq_of_lt hd]
  · have hstep : (n % m + d) % m = n % m + d - m := by
      rw [Nat.mod_eq_sub_mod (not_lt.mp hwrap), Nat.mod_eq_of_lt (by omega)]
    rw [hstep, show n % m + d - m + m - n % m = d by omega, Nat.mod_eq_of_lt hd]

/-- The masked difference of two slots, in 32-bit arithmetic. -/
theorem slot_distance {k a b : ℕ} (hk : k ≤ 32) (hab : a ≤ b) (hwin : b < a + 2 ^ k) :
    ((b % 2 ^ k + 2 ^ 32 - a % 2 ^ k) % 2 ^ 32 &&& (2 ^ k - 1)) = b - a := by
  have hpow : 2 ^ k ∣ 2 ^ 32 := pow_dvd_pow 2 hk
  have hle : 2 ^ k ≤ 2 ^ 32 := Nat.le_of_dvd (by decide) hpow
  have hpos : 0 < 2 ^ k := Nat.two_pow_pos k
  have ha := Nat.mod_lt a hpos
  rw [Nat.and_two_pow_sub_one_eq_mod, Nat.mod_mod_of_dvd _ hpow]
  have hsum : (b % 2 ^ k + 2 ^ 32 - a % 2 ^ k + a) % 2 ^ k = (b - a + a) % 2 ^ k := by
    obtain ⟨m, hm⟩ := hpow
    have hsplit := Nat.div_add_mod a (2 ^ k)
    have heq : b % 2 ^ k + 2 ^ 32 - a % 2 ^ k + a = b % 2 ^ k + 2 ^ k * (m + a / 2 ^ k) := by
      rw [Nat.mul_add]
      omega
    rw [heq, Nat.add_mul_mod_self_left, Nat.mod_mod, Nat.sub_add_cancel hab]
  have hcancel := Nat.ModEq.add_right_cancel' a hsum
  rw [hcancel, Nat.mod_eq_of_lt (by omega)]

end Iot7688.Lib.Ring
