import Iot7688.Lib.Memory

/-!
Ones' complement sums of 16-bit words, the most significant byte first. A sum with an
end-around carry is the sum modulo 0xffff, but only nothing adds up to zero. A field that
holds the complement of the rest makes the whole 0xffff.
-/
namespace Iot7688.Lib

/-- The 16-bit number that a sum is folded to. -/
def onesFold (n : ℕ) : ℕ := if n = 0 then 0 else (n - 1) % 0xffff + 1

/-- An addition that adds the carry back in. -/
def addCarry (a b : BitVec 16) : BitVec 16 := if a + b < b then a + b + 1 else a + b

def word16 (a b : Byte) : BitVec 16 := a.toBitVec ++ b.toBitVec

/-- A byte that is left over is the upper half of a word. -/
def wordSum : List Byte → ℕ
  | [] => 0
  | [a] => (word16 a 0).toNat
  | a :: b :: rest => (word16 a b).toNat + wordSum rest

def onesSum (l : List Byte) : ℕ := onesFold (wordSum l)

theorem onesFold_onesFold_add (m n : ℕ) : onesFold (onesFold m + n) = onesFold (m + n) := by
  unfold onesFold
  split_ifs <;> omega

theorem onesFold_of_lt {n : ℕ} (h : n < 2 ^ 16) : onesFold n = n := by
  unfold onesFold
  split_ifs <;> omega

theorem onesFold_eq_zero {n : ℕ} : onesFold n = 0 ↔ n = 0 := by
  unfold onesFold
  split
  · next h => exact iff_of_true rfl h
  · next h => exact iff_of_false (Nat.succ_ne_zero _) h

theorem onesFold_lt (n : ℕ) : onesFold n < 2 ^ 16 := by
  unfold onesFold
  split_ifs <;> omega

theorem onesFold_eq_max {n : ℕ} (h : n ≠ 0) : onesFold n = 0xffff ↔ 0xffff ∣ n := by
  unfold onesFold
  rw [if_neg h, Nat.dvd_iff_mod_eq_zero]
  omega

/-- The complement of a sum fills it up. -/
theorem onesFold_complement {n : ℕ} (h : n ≠ 0) :
    onesFold (n + (0xffff - onesFold n)) = 0xffff := by
  unfold onesFold
  rw [if_neg h, if_neg (by omega)]
  omega

theorem toNat_addCarry (a b : BitVec 16) :
    (addCarry a b).toNat = onesFold (a.toNat + b.toNat) := by
  have ha := a.isLt
  have hb := b.isLt
  have hsum : (a + b).toNat = (a.toNat + b.toNat) % 2 ^ 16 := BitVec.toNat_add a b
  unfold addCarry onesFold
  split
  · next hcarry =>
    rw [BitVec.lt_def, hsum] at hcarry
    rw [BitVec.toNat_add, hsum, show (1 : BitVec 16).toNat = 1 from rfl]
    split_ifs <;> omega
  · next hcarry =>
    rw [BitVec.lt_def, hsum] at hcarry
    rw [hsum]
    split_ifs <;> omega

theorem toNat_word16 (a b : Byte) : (word16 a b).toNat = 256 * a.toNat + b.toNat := by
  have hb := b.toNat_lt
  unfold word16
  rw [BitVec.toNat_append, UInt8.toNat_toBitVec, UInt8.toNat_toBitVec,
    ← Nat.shiftLeft_add_eq_or_of_lt hb, Nat.shiftLeft_eq]
  omega

/-- Words are summed up piece by piece, if the pieces do not split a word. -/
theorem wordSum_append {l : List Byte} (l' : List Byte) (h : l.length % 2 = 0) :
    wordSum (l ++ l') = wordSum l + wordSum l' := by
  induction l using wordSum.induct with
  | case1 => simp [wordSum]
  | case2 a => simp at h
  | case3 a b rest ih =>
    have hrest : rest.length % 2 = 0 := by
      simp only [List.length_cons] at h
      omega
    simp only [List.cons_append, wordSum, ih hrest, Nat.add_assoc]

theorem wordSum_ne_zero {l : List Byte} {b : Byte} (hmem : b ∈ l) (hb : b ≠ 0) : wordSum l ≠ 0 := by
  have hpos : b.toNat ≠ 0 := fun h => hb (UInt8.toNat_inj.mp h)
  induction l using wordSum.induct with
  | case1 => cases hmem
  | case2 a =>
    obtain rfl := List.mem_singleton.mp hmem
    rw [wordSum, toNat_word16]
    omega
  | case3 a c rest ih =>
    rw [wordSum, toNat_word16]
    rcases List.mem_cons.mp hmem with rfl | hmem
    · omega
    · rcases List.mem_cons.mp hmem with rfl | hmem
      · omega
      · have := ih hmem
        omega

end Iot7688.Lib
