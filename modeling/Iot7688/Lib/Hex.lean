import Iot7688.Lib.Memory

/-!
Bytes as text, two hexadecimal digits for each in either case, and numbers as bytes, the most
significant first. A loop that takes in digit after digit computes the number.
-/
namespace Iot7688.Lib

def hexDigit? (c : Byte) : Option ℕ :=
  if 0x30 ≤ c ∧ c ≤ 0x39 then some (c.toNat - 0x30)
  else if 0x41 ≤ c ∧ c ≤ 0x46 then some (c.toNat - 0x37)
  else if 0x61 ≤ c ∧ c ≤ 0x66 then some (c.toNat - 0x57)
  else none

def HexText : List Byte → List Byte → Prop
  | [], [] => True
  | a :: b :: t, x :: xs =>
      hexDigit? a = some (x.toNat / 16) ∧ hexDigit? b = some (x.toNat % 16) ∧ HexText t xs
  | _, _ => False

def beNumber (bytes : List Byte) : ℕ := bytes.foldl (fun n b => n * 2 ^ 8 + b.toNat) 0

variable {t xs : List Byte} {n : ℕ}

theorem HexText.cases (h : HexText t xs) : t = [] ∧ xs = [] ∨
    ∃ a b t' x xs', t = a :: b :: t' ∧ xs = x :: xs' ∧ hexDigit? a = some (x.toNat / 16) ∧
      hexDigit? b = some (x.toNat % 16) ∧ HexText t' xs' := by
  match t, xs with
  | [], [] => exact Or.inl ⟨rfl, rfl⟩
  | a :: b :: t', x :: xs' => exact Or.inr ⟨a, b, t', x, xs', rfl, rfl, h⟩
  | [], _ :: _ => exact h.elim
  | [_], _ => exact h.elim
  | _ :: _ :: _, [] => exact h.elim

theorem HexText.length (h : HexText t xs) : t.length = 2 * xs.length := by
  induction xs generalizing t with
  | nil =>
    obtain ⟨rfl, -⟩ | ⟨_, _, _, _, _, -, hcons, -⟩ := h.cases
    · rfl
    · cases hcons
  | cons x xs ih =>
    obtain ⟨-, hnil⟩ | ⟨a, b, t', x', xs', rfl, hcons, -, -, hrest⟩ := h.cases
    · cases hnil
    · obtain ⟨rfl, rfl⟩ := List.cons.inj hcons
      have hlen := ih hrest
      simp only [List.length_cons]
      omega

theorem HexText.drop (h : HexText t xs) (n : ℕ) : HexText (t.drop (2 * n)) (xs.drop n) := by
  induction n generalizing t xs with
  | zero => exact h
  | succ n ih =>
    obtain ⟨rfl, rfl⟩ | ⟨a, b, t', x, xs', rfl, rfl, -, -, hrest⟩ := h.cases
    · rw [List.drop_nil, List.drop_nil]
      trivial
    · rw [Nat.mul_succ, List.drop_succ_cons, List.drop_succ_cons, List.drop_succ_cons]
      exact ih hrest

theorem HexText.take (h : HexText t xs) (n : ℕ) : HexText (t.take (2 * n)) (xs.take n) := by
  induction n generalizing t xs with
  | zero => trivial
  | succ n ih =>
    obtain ⟨rfl, rfl⟩ | ⟨a, b, t', x, xs', rfl, rfl, ha, hb, hrest⟩ := h.cases
    · rw [List.take_nil, List.take_nil]
      trivial
    · rw [Nat.mul_succ, List.take_succ_cons, List.take_succ_cons, List.take_succ_cons]
      exact ⟨ha, hb, ih hrest⟩

/-- Every character is a digit. -/
theorem HexText.isDigit (h : HexText t xs) : ∀ c ∈ t, (hexDigit? c).isSome = true := by
  induction xs generalizing t with
  | nil =>
    obtain ⟨rfl, -⟩ | ⟨_, _, _, _, _, -, hcons, -⟩ := h.cases
    · exact fun c hc => absurd hc List.not_mem_nil
    · cases hcons
  | cons x xs ih =>
    obtain ⟨-, hnil⟩ | ⟨a, b, t', x', xs', rfl, hcons, ha, hb, hrest⟩ := h.cases
    · cases hnil
    · obtain ⟨rfl, rfl⟩ := List.cons.inj hcons
      simp only [List.forall_mem_cons]
      exact ⟨by rw [ha]; rfl, by rw [hb]; rfl, ih hrest⟩

theorem beNumber_from (bytes : List Byte) (j : ℕ) :
    bytes.foldl (fun n b => n * 2 ^ 8 + b.toNat) j = j * 2 ^ (8 * bytes.length) + beNumber bytes := by
  induction bytes generalizing j with
  | nil => simp [beNumber]
  | cons b bytes ih =>
    rw [beNumber, List.foldl_cons, List.foldl_cons, ih, ih, List.length_cons, Nat.mul_succ, Nat.pow_add]
    ring

theorem beNumber_cons (b : Byte) (bytes : List Byte) :
    beNumber (b :: bytes) = b.toNat * 2 ^ (8 * bytes.length) + beNumber bytes := by
  rw [beNumber, List.foldl_cons, Nat.zero_mul, Nat.zero_add, beNumber_from]

theorem beNumber_lt (bytes : List Byte) : beNumber bytes < 2 ^ (8 * bytes.length) := by
  induction bytes with
  | nil => exact Nat.one_pos
  | cons b bytes ih =>
    have hb := b.toNat_lt
    rw [beNumber_cons, List.length_cons, Nat.mul_succ, Nat.pow_add]
    have hle : (b.toNat + 1) * 2 ^ (8 * bytes.length) ≤ 2 ^ 8 * 2 ^ (8 * bytes.length) :=
      Nat.mul_le_mul_right _ (by omega)
    rw [Nat.succ_mul, Nat.mul_comm (2 ^ 8)] at hle
    omega

/-- Taking in the digits one by one, in a word of w bits. -/
theorem HexText.number {w : ℕ} {step : ℕ → Byte → ℕ}
    (hstep : ∀ j c d, hexDigit? c = some d → step j c = (j * 16 + d) % 2 ^ w) (h : HexText t xs)
    (hfit : 8 * xs.length ≤ w) : t.foldl step 0 = beNumber xs := by
  have hfold : ∀ (t xs : List Byte) (j : ℕ), HexText t xs →
      j * 2 ^ (8 * xs.length) + beNumber xs < 2 ^ w →
      t.foldl step j = j * 2 ^ (8 * xs.length) + beNumber xs := by
    intro t xs
    induction xs generalizing t with
    | nil =>
      intro j h _
      obtain ⟨rfl, -⟩ | ⟨_, _, _, _, _, -, hcons, -⟩ := h.cases
      · simp [beNumber]
      · cases hcons
    | cons x xs ih =>
      intro j h hlt
      obtain ⟨-, hnil⟩ | ⟨a, b, t', x', xs', rfl, hcons, ha, hb, hrest⟩ := h.cases
      · cases hnil
      obtain ⟨rfl, rfl⟩ := List.cons.inj hcons
      have hsplit : j * 2 ^ (8 * (x :: xs).length) + beNumber (x :: xs) =
          (j * 2 ^ 8 + x.toNat) * 2 ^ (8 * xs.length) + beNumber xs := by
        rw [beNumber_cons, List.length_cons, Nat.mul_succ, Nat.pow_add]
        ring
      rw [hsplit] at hlt ⊢
      have hpos : 1 ≤ 2 ^ (8 * xs.length) := Nat.one_le_two_pow
      have hword : j * 2 ^ 8 + x.toNat < 2 ^ w := by
        have hle := Nat.mul_le_mul_left (j * 2 ^ 8 + x.toNat) hpos
        omega
      have hhalf : j * 16 + x.toNat / 16 < 2 ^ w := by omega
      rw [List.foldl_cons, List.foldl_cons, hstep _ _ _ ha, hstep _ _ _ hb, Nat.mod_eq_of_lt hhalf]
      have hbyte : (j * 16 + x.toNat / 16) * 16 + x.toNat % 16 = j * 2 ^ 8 + x.toNat := by omega
      rw [hbyte, Nat.mod_eq_of_lt hword]
      exact ih t' _ hrest hlt
  have hlt := (beNumber_lt xs).trans_le (Nat.pow_le_pow_right two_pos hfit)
  rw [hfold t xs 0 h (by rwa [Nat.zero_mul, Nat.zero_add]), Nat.zero_mul, Nat.zero_add]

end Iot7688.Lib
