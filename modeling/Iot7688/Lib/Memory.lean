import Mathlib.Data.Int.Bitwise
import Mathlib.Data.List.DropRight
import Mathlib.Data.Nat.Digits.Lemmas

/-!
Byte memories as total functions, with segment copies and fills. A copy is
described by what it stores inside its segment and by the frame outside it;
adjacent copies from one source fuse, so a loop that copies in pieces is
the copy of the whole.
-/
namespace Iot7688.Lib

abbrev Byte := UInt8

/-- A memory, or the bytes a pointer leads to. -/
abbrev Mem := ℕ → Byte

namespace Mem

def copy (m : Mem) (dst n : ℕ) (src : Mem) : Mem :=
  fun x => if dst ≤ x ∧ x < dst + n then src (x - dst) else m x

def fill (m : Mem) (dst n : ℕ) (b : Byte) : Mem :=
  fun x => if dst ≤ x ∧ x < dst + n then b else m x

/-- Program a segment of flash cells: bits can only be cleared. -/
def program (m : Mem) (dst n : ℕ) (src : Mem) : Mem :=
  fun x => if dst ≤ x ∧ x < dst + n then m x &&& src (x - dst) else m x

def shift (m : Mem) (n : ℕ) : Mem := fun x => m (n + x)

@[simp] theorem shift_apply (m : Mem) (n x : ℕ) : m.shift n x = m (n + x) := rfl

@[simp] theorem shift_shift (m : Mem) (a b : ℕ) : (m.shift a).shift b = m.shift (a + b) := by
  funext x
  simp [Nat.add_assoc]

@[simp] theorem copy_zero (m : Mem) (dst : ℕ) (src : Mem) : m.copy dst 0 src = m := by
  funext x
  unfold copy
  rw [if_neg (by omega)]

@[simp] theorem program_zero (m : Mem) (dst : ℕ) (src : Mem) : m.program dst 0 src = m := by
  funext x
  unfold program
  rw [if_neg (by omega)]

@[simp] theorem fill_zero (m : Mem) (dst : ℕ) (b : Byte) : m.fill dst 0 b = m := by
  funext x
  unfold fill
  rw [if_neg (by omega)]

theorem copy_inside (m src : Mem) {dst n i : ℕ} (hi : i < n) :
    m.copy dst n src (dst + i) = src i := by
  unfold copy
  rw [if_pos (by omega), Nat.add_sub_cancel_left]

theorem copy_start (m src : Mem) {n i : ℕ} (hi : i < n) : m.copy 0 n src i = src i := by
  unfold copy
  rw [if_pos (by omega), Nat.sub_zero]

theorem copy_outside (m src : Mem) {dst n x : ℕ} (hx : x < dst ∨ dst + n ≤ x) :
    m.copy dst n src x = m x := by
  unfold copy
  rw [if_neg (by omega)]

theorem fill_outside (m : Mem) (b : Byte) {dst n x : ℕ} (hx : x < dst ∨ dst + n ≤ x) :
    m.fill dst n b x = m x := by
  unfold fill
  rw [if_neg (by omega)]

theorem copy_append (m src : Mem) (dst a b : ℕ) :
    (m.copy dst a src).copy (dst + a) b (src.shift a) = m.copy dst (a + b) src := by
  funext x
  unfold copy shift
  by_cases h1 : dst + a ≤ x ∧ x < dst + a + b
  · have hidx : a + (x - (dst + a)) = x - dst := by omega
    rw [if_pos h1, if_pos (by omega), hidx]
  · rw [if_neg h1]
    by_cases h2 : dst ≤ x ∧ x < dst + a
    · rw [if_pos h2, if_pos (by omega)]
    · rw [if_neg h2, if_neg (by omega)]

theorem program_append (m src : Mem) (dst a b : ℕ) :
    (m.program dst a src).program (dst + a) b (src.shift a) = m.program dst (a + b) src := by
  funext x
  unfold program shift
  by_cases h1 : dst + a ≤ x ∧ x < dst + a + b
  · have hidx : a + (x - (dst + a)) = x - dst := by omega
    rw [if_pos h1, if_neg (by omega), if_pos (by omega), hidx]
  · rw [if_neg h1]
    by_cases h2 : dst ≤ x ∧ x < dst + a
    · rw [if_pos h2, if_pos (by omega)]
    · rw [if_neg h2, if_neg (by omega)]

theorem fill_append (m : Mem) (dst a b : ℕ) (v : Byte) :
    (m.fill dst a v).fill (dst + a) b v = m.fill dst (a + b) v := by
  funext x
  unfold fill
  by_cases h : dst ≤ x ∧ x < dst + (a + b)
  · rw [if_pos h]
    by_cases h1 : dst + a ≤ x ∧ x < dst + a + b
    · rw [if_pos h1]
    · rw [if_neg h1, if_pos (by omega)]
  · rw [if_neg h, if_neg (by omega), if_neg (by omega)]

/-- Programming cells that are all erased stores the source. -/
theorem program_erased (m src : Mem) (dst n : ℕ) (h : ∀ i, i < n → m (dst + i) = 0xff) :
    m.program dst n src = m.copy dst n src := by
  funext x
  unfold program copy
  by_cases hx : dst ≤ x ∧ x < dst + n
  · have hv := h (x - dst) (by omega)
    rw [show dst + (x - dst) = x by omega] at hv
    rw [if_pos hx, if_pos hx, hv]
    apply UInt8.toBitVec_inj.mp
    rw [UInt8.toBitVec_and]
    exact BitVec.allOnes_and
  · rw [if_neg hx, if_neg hx]

theorem fill_program (m src : Mem) (dst n : ℕ) :
    (m.fill dst n 0xff).program dst n src = m.copy dst n src := by
  rw [program_erased]
  · funext x
    unfold copy fill
    by_cases hx : dst ≤ x ∧ x < dst + n
    · rw [if_pos hx, if_pos hx]
    · rw [if_neg hx, if_neg hx, if_neg hx]
  · intro i hi
    unfold fill
    rw [if_pos (by omega)]

/-- Two copies of the same bytes are the same copy. -/
theorem copy_congr (m : Mem) {src src' : Mem} (dst n : ℕ) (h : ∀ i, i < n → src i = src' i) :
    m.copy dst n src = m.copy dst n src' := by
  funext x
  unfold copy
  by_cases hx : dst ≤ x ∧ x < dst + n
  · rw [if_pos hx, if_pos hx, h (x - dst) (by omega)]
  · rw [if_neg hx, if_neg hx]

/-- Writing back a segment that was read, with a piece of it replaced, is
the copy of that piece. -/
theorem copy_patched (m src : Mem) {base n piece k : ℕ} (h : piece + k ≤ n) :
    m.copy base n ((m.shift base).copy piece k src) = m.copy (base + piece) k src := by
  funext x
  unfold copy shift
  by_cases hx : base ≤ x ∧ x < base + n
  · rw [if_pos hx]
    by_cases hp : piece ≤ x - base ∧ x - base < piece + k
    · rw [if_pos hp, if_pos (by omega), show x - base - piece = x - (base + piece) by omega]
    · rw [if_neg hp, if_neg (by omega), show base + (x - base) = x by omega]
  · rw [if_neg hx, if_neg (by omega)]

/-- The same when the segment went through a buffer. -/
theorem copy_patched_buffer (m buffer src : Mem) {base n piece k : ℕ} (h : piece + k ≤ n) :
    m.copy base n ((buffer.copy 0 n (m.shift base)).copy piece k src) =
      m.copy (base + piece) k src := by
  rw [← copy_patched m src h]
  refine copy_congr m base n fun i hi => ?_
  unfold copy
  rw [if_pos (by omega : 0 ≤ i ∧ i < 0 + n), Nat.sub_zero]

end Mem
end Iot7688.Lib
