import Mathlib.Algebra.Group.Nat.Defs
import Mathlib.Data.Nat.Basic

/-!
GetTick and TickElapsed of ioTest and genMacAddr. The counter of milliseconds has 32 bits.
The branch for a counter that wrapped is one millisecond short, since it subtracts from
the greatest value of the counter and not from the number of its values.
-/
namespace Iot7688.Tick

/-- What gettimeofday returns. -/
structure Timeval where
  sec : ℕ
  usec : ℕ
  usec_lt : usec < 1000000

/-- The time in milliseconds. -/
def Timeval.millis (t : Timeval) : ℕ := 1000 * t.sec + t.usec / 1000

/-- The product and the sum wrap. -/
def getTick (currTime : Timeval) : UInt32 :=
  UInt32.ofNat (currTime.usec / 1000) + UInt32.ofNat currTime.sec * 1000

def tickElapsed (aTick : UInt32) (currTime : Timeval) : UInt32 :=
  let currTick := getTick currTime
  if aTick ≤ currTick then currTick - aTick else 0xffffffff - aTick + currTick

theorem getTick_toNat (t : Timeval) : (getTick t).toNat = t.millis % 2 ^ 32 := by
  have husec : t.usec / 1000 < 2 ^ 32 := by
    have := t.usec_lt
    omega
  have hproduct : t.sec % 2 ^ 32 * 1000 % 2 ^ 32 = 1000 * t.sec % 2 ^ 32 := by omega
  unfold getTick Timeval.millis
  rw [UInt32.toNat_add, UInt32.toNat_mul, UInt32.toNat_ofNat', UInt32.toNat_ofNat',
    Nat.mod_eq_of_lt husec]
  show (t.usec / 1000 + t.sec % 2 ^ 32 * 1000 % 2 ^ 32) % 2 ^ 32 = _
  omega

section

variable {t0 t1 : Timeval} (hlater : t0.millis ≤ t1.millis)
  (hspan : t1.millis - t0.millis < 2 ^ 32)

include hlater hspan

/-- While the counter does not wrap the result is right. -/
theorem tickElapsed_same (hwrap : (getTick t0).toNat + (t1.millis - t0.millis) < 2 ^ 32) :
    (tickElapsed (getTick t0) t1).toNat = t1.millis - t0.millis := by
  have h0 := getTick_toNat t0
  have h1 := getTick_toNat t1
  have hle : getTick t0 ≤ getTick t1 := by
    rw [UInt32.le_iff_toNat_le]
    omega
  unfold tickElapsed
  dsimp only
  rw [if_pos hle, UInt32.toNat_sub_of_le _ _ hle]
  omega

/-- Once it has wrapped the result is one short. -/
theorem tickElapsed_wrapped (hwrap : 2 ^ 32 ≤ (getTick t0).toNat + (t1.millis - t0.millis)) :
    (tickElapsed (getTick t0) t1).toNat + 1 = t1.millis - t0.millis := by
  have h0 := getTick_toNat t0
  have h1 := getTick_toNat t1
  have hlt := (getTick t0).toNat_lt
  have hnot : ¬getTick t0 ≤ getTick t1 := by
    rw [UInt32.le_iff_toNat_le]
    omega
  have hmax : getTick t0 ≤ 0xffffffff := by
    rw [UInt32.le_iff_toNat_le]
    exact Nat.le_of_lt_succ hlt
  unfold tickElapsed
  dsimp only
  rw [if_neg hnot, UInt32.toNat_add, UInt32.toNat_sub_of_le _ _ hmax]
  show (2 ^ 32 - 1 - (getTick t0).toNat + (getTick t1).toNat) % 2 ^ 32 + 1 = _
  omega

end

/-- The result is the time that went by if the counter did not wrap in between. -/
theorem tickElapsed_iff {t0 t1 : Timeval} (hlater : t0.millis ≤ t1.millis)
    (hspan : t1.millis - t0.millis < 2 ^ 32) :
    (tickElapsed (getTick t0) t1).toNat = t1.millis - t0.millis ↔
      (getTick t0).toNat + (t1.millis - t0.millis) < 2 ^ 32 := by
  refine ⟨fun hright => ?_, tickElapsed_same hlater hspan⟩
  by_contra hwrap
  have hshort := tickElapsed_wrapped hlater hspan (Nat.le_of_not_lt hwrap)
  omega

/-- The time so many milliseconds after the epoch. -/
def Timeval.ofMillis (n : ℕ) : Timeval := ⟨n / 1000, n % 1000 * 1000, by omega⟩

/-- A second, measured at a time without a wrap. -/
theorem second_counted :
    (tickElapsed (getTick (Timeval.ofMillis 1000)) (Timeval.ofMillis 2000)).toNat =
      (Timeval.ofMillis 2000).millis - (Timeval.ofMillis 1000).millis :=
  (tickElapsed_iff (by decide) (by decide)).mpr (by decide)

/-- A millisecond in which the counter wraps is not counted. -/
theorem wrap_not_counted :
    (Timeval.ofMillis 4294967296).millis - (Timeval.ofMillis 4294967295).millis = 1 ∧
      (tickElapsed (getTick (Timeval.ofMillis 4294967295))
        (Timeval.ofMillis 4294967296)).toNat = 0 := by
  decide

end Iot7688.Tick
