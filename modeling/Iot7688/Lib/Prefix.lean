import Mathlib.Data.Nat.Bitwise
import Mathlib.Tactic.Ring

/-!
Numbers of w bits by their first bits. The numbers that share the first p bits of x are
the ones with the same quotient by 2 ^ (w - p); such a set contains another one exactly
when it is given by fewer bits, and by the same ones.
-/
namespace Iot7688.Lib

/-- The numbers of w bits with the first p bits of x. -/
def sharing (w p x : ℕ) : Set ℕ :=
  {z | z < 2 ^ w ∧ ∀ i, i < p → z.testBit (w - 1 - i) = x.testBit (w - 1 - i)}

/-- The first p bits of x, and zeros after them. -/
def network (w p x : ℕ) : ℕ := x / 2 ^ (w - p) * 2 ^ (w - p)

variable {w p q x y z : ℕ}

theorem mem_sharing (hp : p ≤ w) (hx : x < 2 ^ w) :
    z ∈ sharing w p x ↔ z < 2 ^ w ∧ z / 2 ^ (w - p) = x / 2 ^ (w - p) := by
  refine and_congr_right fun hz => ⟨fun h => ?_, fun h i hi => ?_⟩
  · apply Nat.eq_of_testBit_eq
    intro j
    rw [Nat.testBit_div_two_pow, Nat.testBit_div_two_pow]
    by_cases hj : w - p + j < w
    · have hbit := h (w - 1 - (w - p + j)) (by omega)
      have hplace : w - 1 - (w - 1 - (w - p + j)) = j + (w - p) := by omega
      rwa [hplace] at hbit
    · have hlarge : 2 ^ w ≤ 2 ^ (j + (w - p)) := Nat.pow_le_pow_right (by omega) (by omega)
      rw [Nat.testBit_lt_two_pow (hz.trans_le hlarge), Nat.testBit_lt_two_pow (hx.trans_le hlarge)]
  · have hplace : w - 1 - i = w - 1 - i - (w - p) + (w - p) := by omega
    rw [hplace, ← Nat.testBit_div_two_pow, ← Nat.testBit_div_two_pow, h]

theorem self_mem_sharing (hx : x < 2 ^ w) : x ∈ sharing w p x := ⟨hx, fun _ _ => rfl⟩

/-- There are no bits behind the last one. -/
theorem sharing_min (hw : 0 < w) (p x : ℕ) : sharing w p x = sharing w (min p w) x := by
  obtain hle | hlt := Nat.le_total p w
  · rw [min_eq_left hle]
  · rw [min_eq_right hlt]
    refine Set.ext fun z => and_congr_right fun _ =>
      ⟨fun h i hi => h i (hi.trans_le hlt), fun h i hi => ?_⟩
    obtain hiw | hiw := Nat.lt_or_ge i w
    · exact h i hiw
    · have hplace : w - 1 - i = w - 1 - (w - 1) := by omega
      rw [hplace]
      exact h (w - 1) (by omega)

/-- The bits behind the first ones are free. -/
theorem network_add_mem (hp : p ≤ w) (hx : x < 2 ^ w) {d : ℕ} (hd : d < 2 ^ (w - p)) :
    network w p x + d ∈ sharing w p x := by
  have hwhole : 2 ^ w = 2 ^ p * 2 ^ (w - p) := by
    rw [← Nat.pow_add]
    congr 1
    omega
  have hquot : x / 2 ^ (w - p) < 2 ^ p := (Nat.div_lt_iff_lt_mul (Nat.two_pow_pos _)).mpr (hwhole ▸ hx)
  have hroom : (x / 2 ^ (w - p) + 1) * 2 ^ (w - p) ≤ 2 ^ w := by
    rw [hwhole]
    exact Nat.mul_le_mul_right _ hquot
  rw [Nat.succ_mul] at hroom
  refine (mem_sharing hp hx).mpr ⟨by unfold network; omega, ?_⟩
  rw [network, Nat.mul_comm, Nat.mul_add_div (Nat.two_pow_pos _), Nat.div_eq_of_lt hd, Nat.add_zero]

theorem network_mem (hp : p ≤ w) (hx : x < 2 ^ w) : network w p x ∈ sharing w p x :=
  network_add_mem hp hx (Nat.two_pow_pos _)

/-- A network has zeros after its first bits. -/
theorem network_zeros {i : ℕ} (hi : i < w - p) : (network w p x).testBit i = false := by
  rw [network, Nat.testBit_mul_two_pow, decide_eq_false (not_le.mpr hi), Bool.false_and]

theorem network_network (w p x : ℕ) : network w p (network w p x) = network w p x := by
  rw [network, network, Nat.mul_div_cancel _ (Nat.two_pow_pos _)]

theorem network_add (p x : ℕ) {d : ℕ} (hd : d < 2 ^ (w - p)) :
    network w p (network w p x + d) = network w p x := by
  have hquot : (x / 2 ^ (w - p) * 2 ^ (w - p) + d) / 2 ^ (w - p) = x / 2 ^ (w - p) := by
    rw [Nat.mul_comm, Nat.mul_add_div (Nat.two_pow_pos _), Nat.div_eq_of_lt hd, Nat.add_zero]
  rw [network, network, hquot]

/-- More bits of a number give fewer numbers. -/
theorem sharing_subset_iff (hp : p ≤ w) (hq : q ≤ w) (hx : x < 2 ^ w) (hy : y < 2 ^ w) :
    sharing w q y ⊆ sharing w p x ↔ p ≤ q ∧ y / 2 ^ (w - p) = x / 2 ^ (w - p) := by
  constructor
  · intro h
    have hself := ((mem_sharing hp hx).mp (h (self_mem_sharing hy))).2
    refine ⟨?_, hself⟩
    by_contra hlt
    -- two numbers of the larger set that differ in the bit after the first q
    have hstep : 2 ^ (w - p) < 2 ^ (w - q) := Nat.pow_lt_pow_right (by omega) (by omega)
    have hfirst := ((mem_sharing hp hx).mp (h (network_mem hq hy))).2
    have hnext := ((mem_sharing hp hx).mp (h (network_add_mem hq hy hstep))).2
    rw [Nat.add_div_right _ (Nat.two_pow_pos _), hfirst] at hnext
    omega
  · rintro ⟨hpq, heq⟩ z ⟨hz, hbits⟩
    have hsame := ((mem_sharing hq hy).mp ⟨hz, hbits⟩).2
    refine (mem_sharing hp hx).mpr ⟨hz, ?_⟩
    have hpow : 2 ^ (w - p) = 2 ^ (w - q) * 2 ^ (q - p) := by
      rw [← Nat.pow_add]
      congr 1
      omega
    rw [← heq, hpow, ← Nat.div_div_eq_div_mul, ← Nat.div_div_eq_div_mul, hsame]

section

variable {k : ℕ}

theorem toNat_low (hk : k < w) : (1#w <<< k - 1#w).toNat = 2 ^ k - 1 := by
  have hlt : 2 ^ k < 2 ^ w := Nat.pow_lt_pow_right (by omega) hk
  have hone : (1#w).toNat = 1 := by
    rw [BitVec.toNat_ofNat]
    exact Nat.mod_eq_of_lt (Nat.one_lt_two_pow (by omega))
  have hbit : (1#w <<< k).toNat = 2 ^ k := by
    rw [BitVec.toNat_shiftLeft, hone, Nat.shiftLeft_eq, Nat.one_mul, Nat.mod_eq_of_lt hlt]
  rw [BitVec.toNat_sub_of_le (BitVec.le_def.mpr (by rw [hone, hbit]; exact Nat.one_le_two_pow)),
    hone, hbit]

theorem getLsbD_low (hk : k < w) (i : ℕ) : (1#w <<< k - 1#w).getLsbD i = decide (i < k) := by
  rw [BitVec.getLsbD, toNat_low hk, Nat.testBit_two_pow_sub_one]

/-- The mask of a prefix has its ones in front. -/
theorem getLsbD_mask (hk : k < w) {i : ℕ} (hi : i < w) :
    (~~~(1#w <<< k - 1#w)).getLsbD i = decide (k ≤ i) := by
  rw [BitVec.getLsbD_not, getLsbD_low hk, decide_eq_true hi, Bool.true_and, ← decide_not]
  exact decide_eq_decide.mpr not_lt

/-- Masking leaves the network. -/
theorem toNat_and_mask (hk : k < w) (x : BitVec w) :
    (x &&& ~~~(1#w <<< k - 1#w)).toNat = x.toNat / 2 ^ k * 2 ^ k := by
  apply Nat.eq_of_testBit_eq
  intro i
  rw [Nat.testBit_mul_two_pow]
  show (x &&& ~~~(1#w <<< k - 1#w)).getLsbD i = _
  rw [BitVec.getLsbD_and, Nat.testBit_div_two_pow]
  by_cases hi : i < w
  · rw [getLsbD_mask hk hi, Bool.and_comm]
    by_cases hki : k ≤ i
    · rw [Nat.sub_add_cancel hki]
      rfl
    · rw [decide_eq_false hki, Bool.false_and, Bool.false_and]
  · have hlarge : x.toNat < 2 ^ i := x.isLt.trans_le (Nat.pow_le_pow_right (by omega) (by omega))
    rw [Nat.sub_add_cancel (by omega), Nat.testBit_lt_two_pow hlarge, Bool.and_false,
      BitVec.getLsbD_of_ge x i (by omega), Bool.false_and]

theorem toNat_or_low (hk : k < w) (x : BitVec w) :
    (x ||| (1#w <<< k - 1#w)).toNat = x.toNat / 2 ^ k * 2 ^ k + (2 ^ k - 1) := by
  have hlow : 2 ^ k - 1 < 2 ^ k := Nat.sub_lt (Nat.two_pow_pos k) Nat.one_pos
  apply Nat.eq_of_testBit_eq
  intro i
  rw [BitVec.toNat_or, toNat_low hk, Nat.testBit_or, Nat.testBit_two_pow_sub_one, Nat.mul_comm,
    Nat.testBit_two_pow_mul_add _ hlow]
  split
  next hi => rw [decide_eq_true hi, Bool.or_true, Nat.testBit_two_pow_sub_one, decide_eq_true hi]
  next hi =>
    rw [decide_eq_false hi, Bool.or_false, Nat.testBit_div_two_pow, Nat.sub_add_cancel (by omega)]

end

end Iot7688.Lib
