import Iot7688.Lib.Memory
import Iot7688.Lib.Patch

/-!
Numbers in a buffer of bytes, the least significant byte first. A checked load has no
result when it would read a byte behind the buffer.
-/
namespace Iot7688.Lib

def leValue : List Byte → ℕ
  | [] => 0
  | b :: bytes => b.toNat + 2 ^ 8 * leValue bytes

def leBytes : ℕ → ℕ → List Byte
  | 0, _ => []
  | n + 1, v => v.toUInt8 :: leBytes n (v / 2 ^ 8)

def field (b : List Byte) (off n : ℕ) : ℕ := leValue (segment b off n)

def load (b : List Byte) (off n : ℕ) : Option ℕ :=
  if off + n ≤ b.length then some (field b off n) else none

theorem load_of_le {b : List Byte} {off n : ℕ} (h : off + n ≤ b.length) :
    load b off n = some (field b off n) := if_pos h

theorem load_of_lt {b : List Byte} {off n : ℕ} (h : b.length < off + n) : load b off n = none :=
  if_neg (by omega)

@[simp] theorem leBytes_length (n v : ℕ) : (leBytes n v).length = n := by
  induction n generalizing v with
  | zero => rfl
  | succ n ih => rw [leBytes, List.length_cons, ih]

theorem leValue_lt (bytes : List Byte) : leValue bytes < 2 ^ (8 * bytes.length) := by
  induction bytes with
  | nil => exact Nat.one_pos
  | cons b bytes ih =>
    have hb := b.toNat_lt
    rw [leValue, List.length_cons, Nat.mul_add, Nat.mul_one, Nat.pow_add]
    omega

theorem leValue_leBytes (n v : ℕ) : leValue (leBytes n v) = v % 2 ^ (8 * n) := by
  induction n generalizing v with
  | zero => rw [leBytes, leValue, Nat.mul_zero, Nat.pow_zero, Nat.mod_one]
  | succ n ih =>
    rw [leBytes, leValue, ih, Nat.mul_add, Nat.mul_one, Nat.pow_add, Nat.mul_comm (2 ^ (8 * n)),
      Nat.mod_mul]
    exact congrArg (· + _) UInt8.toNat_ofNat'

theorem leBytes_leValue (bytes : List Byte) : leBytes bytes.length (leValue bytes) = bytes := by
  induction bytes with
  | nil => rfl
  | cons b bytes ih =>
    have hb := b.toNat_lt
    have hdiv : (b.toNat + 2 ^ 8 * leValue bytes) / 2 ^ 8 = leValue bytes := by omega
    have hlow : (b.toNat + 2 ^ 8 * leValue bytes).toUInt8 = b := by
      apply UInt8.toNat_inj.mp
      refine UInt8.toNat_ofNat'.trans ?_
      omega
    rw [List.length_cons, leValue, leBytes, hdiv, hlow, ih]

theorem leValue_eq_zero {bytes : List Byte} : leValue bytes = 0 ↔ ∀ b ∈ bytes, b = 0 := by
  induction bytes with
  | nil => simp [leValue]
  | cons b bytes ih =>
    have hzero : b.toNat = 0 ↔ b = 0 := UInt8.toNat_inj (b := 0)
    rw [leValue, List.forall_mem_cons, ← ih, ← hzero]
    omega

/-- The bytes of a number count modulo its size. -/
theorem leBytes_mod (n v : ℕ) : leBytes n (v % 2 ^ (8 * n)) = leBytes n v := by
  have hback := leBytes_leValue (leBytes n v)
  rwa [leBytes_length, leValue_leBytes] at hback

theorem field_segment (b : List Byte) (off : ℕ) {n k m : ℕ} (h : k + m ≤ n) :
    field (segment b off n) k m = field b (off + k) m := by
  unfold field
  rw [segment_segment b off h]

theorem field_eq_zero {b : List Byte} {off n : ℕ} (h : off + n ≤ b.length) :
    field b off n = 0 ↔ ∀ j, j < n → b[off + j]? = some 0 := by
  have hlen := length_segment h
  rw [field, leValue_eq_zero]
  constructor
  · intro hall j hj
    have hget : (segment b off n)[j]? = b[off + j]? := by
      rw [getElem?_segment, if_pos hj]
    rw [← hget, List.getElem?_eq_getElem (by omega), hall _ (List.getElem_mem _)]
  · intro hall x hx
    obtain ⟨j, hj, rfl⟩ := List.mem_iff_getElem.mp hx
    have hget : (segment b off n)[j]? = b[off + j]? := by
      rw [getElem?_segment, if_pos (by omega)]
    rw [hall j (by omega), List.getElem?_eq_getElem hj] at hget
    exact Option.some.inj hget

theorem field_append_left {front : List Byte} {off n : ℕ} (h : off + n ≤ front.length)
    (back : List Byte) : field (front ++ back) off n = field front off n := by
  unfold field segment
  rw [List.drop_append_of_le_length (by omega), List.take_append_of_le_length (by
    rw [List.length_drop]
    omega)]

theorem field_append_right (front back : List Byte) (off n : ℕ) :
    field (front ++ back) (front.length + off) n = field back off n := by
  unfold field segment
  rw [List.drop_append, List.drop_eq_nil_of_le (Nat.le_add_right _ _), List.nil_append,
    Nat.add_sub_cancel_left]

theorem field_leBytes_head (n v : ℕ) (back : List Byte) :
    field (leBytes n v ++ back) 0 n = v % 2 ^ (8 * n) := by
  have hlen := leBytes_length n v
  rw [field_append_left (by omega), field, segment, List.drop_zero,
    List.take_of_length_le (by omega), leValue_leBytes]

theorem field_at {front : List Byte} {off : ℕ} (h : front.length = off) (n v : ℕ)
    (back : List Byte) : field (front ++ (leBytes n v ++ back)) off n = v % 2 ^ (8 * n) := by
  rw [← h, ← Nat.add_zero front.length, field_append_right, field_leBytes_head]

theorem field_leBytes_skip {w off : ℕ} (h : w ≤ off) (v n : ℕ) (back : List Byte) :
    field (leBytes w v ++ back) off n = field back (off - w) n := by
  obtain ⟨k, rfl⟩ := Nat.exists_eq_add_of_le h
  have hright := field_append_right (leBytes w v) back k n
  rw [leBytes_length] at hright
  rw [hright, Nat.add_sub_cancel_left]

end Iot7688.Lib
