import Mathlib.Data.List.Basic
import Mathlib.Logic.Function.Iterate

/-!
Reflected table-driven CRCs over any register width. One table lookup is
eight steps of the shift register; the register step is linear and, when the
polynomial has its top bit set, injective. So two buffers that differ in a
single byte, or only within as many bytes as the register has, never share their CRC.
-/
namespace Iot7688.Lib.Crc

variable {w : ℕ} (poly : BitVec w)

/-- One step of the shift register. -/
def shiftBit (c : BitVec w) : BitVec w :=
  if c.getLsbD 0 then poly ^^^ (c >>> 1) else c >>> 1

/-- The table entry of a byte. -/
def table (n : BitVec w) : BitVec w := (shiftBit poly)^[8] n

def update (c : BitVec w) (b : UInt8) : BitVec w :=
  table poly ((c ^^^ b.toBitVec.setWidth w) &&& 0xff#w) ^^^ (c >>> 8)

def updates (c : BitVec w) (buf : List UInt8) : BitVec w := buf.foldl (update poly) c

theorem shiftBit_xor (x y : BitVec w) :
    shiftBit poly (x ^^^ y) = shiftBit poly x ^^^ shiftBit poly y := by
  unfold shiftBit
  rw [BitVec.getLsbD_xor]
  apply BitVec.eq_of_getLsbD_eq
  intro i _
  cases x.getLsbD 0 <;> cases y.getLsbD 0 <;>
    simp only [BitVec.getLsbD_xor, BitVec.getLsbD_ushiftRight, Bool.xor_false, Bool.xor_true,
      Bool.not_false, Bool.not_true, Bool.false_eq_true, if_true, if_false] <;>
    cases poly.getLsbD i <;> cases x.getLsbD (1 + i) <;> cases y.getLsbD (1 + i) <;> rfl

theorem shiftBit_iterate_xor (k : ℕ) (x y : BitVec w) :
    (shiftBit poly)^[k] (x ^^^ y) = (shiftBit poly)^[k] x ^^^ (shiftBit poly)^[k] y := by
  induction k generalizing x y with
  | zero => rfl
  | succ k ih => rw [Function.iterate_succ_apply, Function.iterate_succ_apply,
      Function.iterate_succ_apply, shiftBit_xor, ih]

/-- Zero bits leave the register without feedback. -/
theorem shiftBit_iterate_low_zero (k : ℕ) (x : BitVec w)
    (h : ∀ i, i < k → x.getLsbD i = false) : (shiftBit poly)^[k] x = x >>> k := by
  induction k generalizing x with
  | zero => rw [Function.iterate_zero_apply, BitVec.ushiftRight_zero]
  | succ k ih =>
    have hstep : shiftBit poly x = x >>> 1 := by
      rw [shiftBit, h 0 (Nat.succ_pos k), if_neg Bool.false_ne_true]
    rw [Function.iterate_succ_apply, hstep, ih, ← BitVec.shiftRight_add, Nat.add_comm]
    intro i hi
    rw [BitVec.getLsbD_ushiftRight]
    exact h (1 + i) (by omega)

/-- A table lookup is eight steps of the shift register. -/
theorem update_eq (c : BitVec w) (b : UInt8) :
    update poly c b = (shiftBit poly)^[8] (c ^^^ b.toBitVec.setWidth w) := by
  set x := c ^^^ b.toBitVec.setWidth w with hx
  have hsplit : x = (x &&& 0xff#w) ^^^ (x &&& ~~~0xff#w) := by
    apply BitVec.eq_of_getLsbD_eq
    intro i hi
    simp only [BitVec.getLsbD_xor, BitVec.getLsbD_and, BitVec.getLsbD_not, hi, decide_true,
      Bool.true_and]
    cases x.getLsbD i <;> cases (0xff#w).getLsbD i <;> rfl
  have hmask : ∀ i, i < w → (0xff#w).getLsbD i = decide (i < 8) := by
    intro i hi
    rw [BitVec.getLsbD_ofNat, decide_eq_true hi, Bool.true_and]
    exact Nat.testBit_two_pow_sub_one 8 i
  have hhigh : (x &&& ~~~0xff#w) >>> 8 = c >>> 8 := by
    apply BitVec.eq_of_getLsbD_eq
    intro i hi
    simp only [BitVec.getLsbD_ushiftRight, BitVec.getLsbD_and, BitVec.getLsbD_not, hx,
      BitVec.getLsbD_xor, BitVec.getLsbD_setWidth]
    have hbyte : b.toBitVec.getLsbD (8 + i) = false := BitVec.getLsbD_of_ge _ _ (by omega)
    by_cases hw : 8 + i < w
    · rw [hmask (8 + i) hw, hbyte]
      simp [hw]
    · rw [BitVec.getLsbD_of_ge c _ (by omega)]
      simp [hw]
  rw [update, ← hx, table, ← hhigh, ← shiftBit_iterate_low_zero poly 8 (x &&& ~~~0xff#w),
    ← shiftBit_iterate_xor, ← hsplit]
  intro i hi
  rw [BitVec.getLsbD_and, BitVec.getLsbD_not]
  by_cases hw : i < w
  · rw [hmask i hw]
    simp [hi]
  · simp [hw]

theorem shiftBit_injective (hpoly : poly.msb = true) : Function.Injective (shiftBit poly) := by
  intro x y h
  have hzero : shiftBit poly (x ^^^ y) = 0#w := by rw [shiftBit_xor, h, BitVec.xor_self]
  have hdiff : x ^^^ y = 0#w := by
    have hpos : 0 < w := by
      by_contra hw
      obtain rfl : w = 0 := by omega
      simp [BitVec.of_length_zero] at hpoly
    unfold shiftBit at hzero
    split at hzero
    · have htop := congrArg BitVec.msb hzero
      rw [BitVec.msb_xor, hpoly] at htop
      simp [BitVec.msb_ushiftRight] at htop
    · rename_i hlow
      apply BitVec.eq_of_getLsbD_eq
      intro i hi
      have hbit := congrArg (fun v => v.getLsbD (i - 1)) hzero
      simp only [BitVec.getLsbD_ushiftRight] at hbit
      cases i with
      | zero => simpa using hlow
      | succ i => simpa [Nat.add_comm] using hbit
  exact BitVec.xor_eq_zero_iff.mp hdiff

theorem update_injective_register (hpoly : poly.msb = true) (b : UInt8) :
    Function.Injective fun c => update poly c b := by
  intro c c' h
  simp only [update_eq] at h
  have hreg := (shiftBit_injective poly hpoly).iterate 8 h
  simpa using congrArg (· ^^^ b.toBitVec.setWidth w) hreg

theorem update_injective_byte (hpoly : poly.msb = true) (hw : 8 ≤ w) (c : BitVec w) :
    Function.Injective (update poly c) := by
  intro b b' h
  rw [update_eq, update_eq] at h
  have hreg := (shiftBit_injective poly hpoly).iterate 8 h
  have hbyte : b.toBitVec.setWidth w = b'.toBitVec.setWidth w := by
    simpa [← BitVec.xor_assoc] using congrArg (c ^^^ ·) hreg
  apply UInt8.toBitVec_inj.mp
  have := congrArg (BitVec.setWidth 8) hbyte
  rwa [BitVec.setWidth_setWidth_of_le _ hw, BitVec.setWidth_setWidth_of_le _ hw,
    BitVec.setWidth_eq, BitVec.setWidth_eq] at this

theorem updates_injective_register (hpoly : poly.msb = true) (buf : List UInt8) :
    Function.Injective fun c => updates poly c buf := by
  induction buf with
  | nil => exact fun _ _ h => h
  | cons b buf ih =>
    intro c c' h
    exact update_injective_register poly hpoly b (ih h)

/-- A change of one byte changes the CRC. -/
theorem updates_ne_of_byte_ne (hpoly : poly.msb = true) (hw : 8 ≤ w) (c : BitVec w)
    (front back : List UInt8) {b b' : UInt8} (hne : b ≠ b') :
    updates poly c (front ++ b :: back) ≠ updates poly c (front ++ b' :: back) := by
  intro h
  simp only [updates, List.foldl_append, List.foldl_cons] at h
  exact hne (update_injective_byte poly hpoly hw _
    (updates_injective_register poly hpoly back h))

/-- Bytes side by side in a register, the first one lowest. -/
def lanes : List UInt8 → BitVec w
  | [] => 0#w
  | b :: bs => b.toBitVec.setWidth w ^^^ (lanes bs <<< 8)

theorem lanes_high (bs : List UInt8) {i : ℕ} (hi : 8 * bs.length ≤ i) :
    (lanes bs : BitVec w).getLsbD i = false := by
  induction bs generalizing i with
  | nil => exact BitVec.getLsbD_zero
  | cons b bs ih =>
    rw [List.length_cons] at hi
    rw [lanes, BitVec.getLsbD_xor, BitVec.getLsbD_shiftLeft, ih (by omega), BitVec.getLsbD_setWidth,
      BitVec.getLsbD_of_ge b.toBitVec i (by omega), Bool.and_false, Bool.and_false, Bool.xor_false]

theorem lanes_injective {bs bs' : List UInt8} (hlen : bs.length = bs'.length)
    (hw : 8 * bs.length ≤ w) (h : (lanes bs : BitVec w) = lanes bs') : bs = bs' := by
  induction bs generalizing bs' with
  | nil => exact (List.eq_nil_of_length_eq_zero hlen.symm).symm
  | cons b bs ih =>
    obtain ⟨b', bs', rfl⟩ := List.exists_cons_of_length_eq_add_one hlen.symm
    rw [List.length_cons] at hw
    have hlen' : bs.length = bs'.length := by simpa using hlen
    have hbit (i : ℕ) : (lanes (b :: bs) : BitVec w).getLsbD i = (lanes (b' :: bs')).getLsbD i :=
      congrArg (fun x : BitVec w => x.getLsbD i) h
    simp only [lanes, BitVec.getLsbD_xor, BitVec.getLsbD_setWidth, BitVec.getLsbD_shiftLeft] at hbit
    have hbyte : b = b' := by
      apply UInt8.toBitVec_inj.mp
      apply BitVec.eq_of_getLsbD_eq
      intro i hi
      simpa [hi, show i < w by omega] using hbit i
    have hrest : (lanes bs : BitVec w) = lanes bs' := by
      apply BitVec.eq_of_getLsbD_eq
      intro i hi
      by_cases htop : i + 8 < w
      · have hi8 : ¬i + 8 < 8 := by omega
        simpa [hbyte, htop, hi8] using hbit (i + 8)
      · rw [lanes_high bs (by omega), lanes_high bs' (by omega)]
    rw [hbyte, ih hlen' (by omega) hrest]

/-- As long as they fit in the register, bytes only add to it before it is shifted. -/
theorem updates_eq_lanes (bs : List UInt8) (c : BitVec w) (hw : 8 * bs.length ≤ w) :
    updates poly c bs = (shiftBit poly)^[8 * bs.length] (c ^^^ lanes bs) := by
  induction bs generalizing c with
  | nil => exact BitVec.xor_zero.symm
  | cons b bs ih =>
    rw [List.length_cons] at hw
    have hmove : (shiftBit poly)^[8] (lanes bs <<< 8) = lanes bs := by
      rw [shiftBit_iterate_low_zero]
      · apply BitVec.eq_of_getLsbD_eq
        intro i hi
        rw [BitVec.getLsbD_ushiftRight, BitVec.getLsbD_shiftLeft, Nat.add_sub_cancel_left]
        by_cases htop : 8 + i < w
        · simp [htop]
        · rw [lanes_high bs (by omega), Bool.and_false]
      · intro i hi
        simp [hi]
    have hstep : updates poly c (b :: bs) = updates poly (update poly c b) bs := rfl
    rw [hstep, ih _ (by omega), update_eq, List.length_cons, Nat.mul_add, Nat.mul_one,
      Function.iterate_add_apply, lanes, ← BitVec.xor_assoc,
      shiftBit_iterate_xor poly 8 _ (lanes bs <<< 8), hmove]

/-- A change within as many bytes as the register has changes the CRC. -/
theorem updates_injective_bytes (hpoly : poly.msb = true) (c : BitVec w) (front back : List UInt8)
    {bs bs' : List UInt8} (hlen : bs.length = bs'.length) (hw : 8 * bs.length ≤ w)
    (h : updates poly c (front ++ bs ++ back) = updates poly c (front ++ bs' ++ back)) :
    bs = bs' := by
  simp only [updates, List.foldl_append] at h
  have hmid := updates_injective_register poly hpoly back h
  change updates poly (front.foldl (update poly) c) bs =
    updates poly (front.foldl (update poly) c) bs' at hmid
  rw [updates_eq_lanes poly bs _ hw, updates_eq_lanes poly bs' _ (hlen ▸ hw), ← hlen] at hmid
  have hreg := (shiftBit_injective poly hpoly).iterate (8 * bs.length) hmid
  apply lanes_injective hlen hw
  simpa [← BitVec.xor_assoc] using congrArg (front.foldl (update poly) c ^^^ ·) hreg

end Iot7688.Lib.Crc
