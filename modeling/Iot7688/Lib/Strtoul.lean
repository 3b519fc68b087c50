import Iot7688.Lib.Memory

/-!
strtoul of the C library with a 32-bit long, for the bases 0 and 10. Strings are given
without their NUL; the result has the rest of the string that the end pointer leads to.
In base 10 the scan stops at the first character that is no digit, and nothing behind that
character has any influence on the number.
-/
namespace Iot7688.Lib

def bytesOf (s : String) : List Byte := s.toList.map fun c => c.toNat.toUInt8

/-- The value of a digit, and 36 for other characters. -/
def digitOf (b : Byte) : ℕ :=
  if 48 ≤ b ∧ b ≤ 57 then b.toNat - 48
  else if 65 ≤ b ∧ b ≤ 90 then b.toNat - 55
  else if 97 ≤ b ∧ b ≤ 122 then b.toNat - 87
  else 36

/-- The number that the digits in front make, and the rest. -/
def digitsOf (base : ℕ) (s : List Byte) : Option (ℕ × List Byte) :=
  let digits := s.takeWhile fun b => digitOf b < base
  if digits = [] then none
  else some (digits.foldl (fun n b => n * base + digitOf b) 0, s.drop digits.length)

def unsignedOf (base : ℕ) (s : List Byte) : Option (ℕ × List Byte) :=
  if base = 0 then
    match s with
    | 48 :: x :: d :: rest =>
        if (x = 120 ∨ x = 88) ∧ digitOf d < 16 then digitsOf 16 (d :: rest) else digitsOf 8 s
    | 48 :: _ => digitsOf 8 s
    | _ => digitsOf 10 s
  else digitsOf base s

def strtoul (base : ℕ) (s : List Byte) : ℕ × List Byte :=
  let number (minus : Bool) (t : List Byte) : ℕ × List Byte :=
    match unsignedOf base t with
    | none => (0, s)
    | some (n, rest) =>
        if 2 ^ 32 ≤ n then (2 ^ 32 - 1, rest)
        else if minus then ((2 ^ 32 - n) % 2 ^ 32, rest)
        else (n, rest)
  match s.dropWhile fun b => b = 32 || 9 ≤ b && b ≤ 13 with
  | 45 :: t => number true t
  | 43 :: t => number false t
  | t => number false t

theorem strtoul_lt (base : ℕ) (s : List Byte) : (strtoul base s).1 < 2 ^ 32 := by
  unfold strtoul
  dsimp only
  split <;> split
  all_goals first
    | exact Nat.two_pow_pos 32
    | split
      · exact Nat.sub_lt (Nat.two_pow_pos 32) Nat.one_pos
      · split
        · exact Nat.mod_lt _ (Nat.two_pow_pos 32)
        · omega

example : strtoul 0 (bytesOf " 0x1Fz") = (31, bytesOf "z") := by decide

section

def isBlank (b : Byte) : Bool := b = 32 || 9 ≤ b && b ≤ 13

def isDigit (b : Byte) : Bool := digitOf b < 10

/-- The sign in front of a number, and the text behind it. -/
def signOf : List Byte → Bool × List Byte
  | 45 :: t => (true, t)
  | 43 :: t => (false, t)
  | t => (false, t)

/-- The character that stops the scan of a decimal number, and all that is behind it. -/
def scanEnd (s : List Byte) : List Byte := (signOf (s.dropWhile isBlank)).2.dropWhile isDigit

/-- The number that a sign and digits make. -/
def numberOf (minus : Bool) (digits : List Byte) : ℕ :=
  let n := digits.foldl (fun n b => n * 10 + digitOf b) 0
  if digits = [] then 0
  else if 2 ^ 32 ≤ n then 2 ^ 32 - 1
  else if minus then (2 ^ 32 - n) % 2 ^ 32
  else n

variable {s t : List Byte} {b : Byte}

theorem signOf_of_plain (hminus : ∀ t, s = 45 :: t → False) (hplus : ∀ t, s = 43 :: t → False) :
    signOf s = (false, s) := by
  unfold signOf
  split
  next v => exact (hminus v rfl).elim
  next v => exact (hplus v rfl).elim
  next => rfl

theorem strtoul_ten (s : List Byte) : (strtoul 10 s).1 =
    numberOf (signOf (s.dropWhile isBlank)).1
      ((signOf (s.dropWhile isBlank)).2.takeWhile isDigit) := by
  have hnumber (minus : Bool) (u : List Byte) :
      (match unsignedOf 10 u with
        | none => (0, s)
        | some (n, rest) =>
            if 2 ^ 32 ≤ n then (2 ^ 32 - 1, rest)
            else if minus then ((2 ^ 32 - n) % 2 ^ 32, rest)
            else (n, rest)).1 = numberOf minus (u.takeWhile isDigit) := by
    have hunsigned : unsignedOf 10 u = digitsOf 10 u := rfl
    have hdigits : (u.takeWhile fun b => decide (digitOf b < 10)) = u.takeWhile isDigit := rfl
    rw [hunsigned, digitsOf, hdigits, numberOf]
    by_cases hnil : u.takeWhile isDigit = []
    · simp only [hnil, if_true]
    · simp only [hnil, if_false]
      split
      · rfl
      · cases minus <;> rfl
  unfold strtoul
  dsimp only
  have hblank : (s.dropWhile fun b => decide (b = 32) || decide (9 ≤ b) && decide (b ≤ 13)) =
      s.dropWhile isBlank := rfl
  rw [hblank]
  generalize s.dropWhile isBlank = u
  split
  next v => exact hnumber true v
  next v => exact hnumber false v
  next hminus hplus =>
    rw [signOf_of_plain hminus hplus]
    exact hnumber false u

theorem takeWhile_append_of_dropWhile {p : Byte → Bool} (h : s.dropWhile p ≠ []) (t : List Byte) :
    (s ++ t).takeWhile p = s.takeWhile p := by
  induction s with
  | nil => exact absurd rfl h
  | cons b s ih =>
    rw [List.cons_append, List.takeWhile_cons, List.takeWhile_cons]
    cases hb : p b with
    | false => rfl
    | true =>
      rw [List.dropWhile_cons_of_pos hb] at h
      simp only [if_true, ih h]

theorem dropWhile_append_of_ne_nil {p : Byte → Bool} (h : s.dropWhile p ≠ []) (t : List Byte) :
    (s ++ t).dropWhile p = s.dropWhile p ++ t := by
  rw [List.dropWhile_append, if_neg]
  simpa [List.isEmpty_iff] using h

theorem signOf_append (h : s ≠ []) (t : List Byte) :
    signOf (s ++ t) = ((signOf s).1, (signOf s).2 ++ t) := by
  obtain ⟨b, s, rfl⟩ := List.exists_cons_of_ne_nil h
  rw [List.cons_append]
  by_cases hminus : b = 45
  · subst hminus
    rfl
  · by_cases hplus : b = 43
    · subst hplus
      rfl
    · have hplain (u : List Byte) : signOf (b :: u) = (false, b :: u) :=
        signOf_of_plain (fun _ h => hminus (List.cons.inj h).1) fun _ h => hplus (List.cons.inj h).1
      rw [hplain, hplain]
      rfl

/-- Once the scan has stopped, more text makes no difference. -/
theorem scanEnd_append (h : scanEnd s ≠ []) (t : List Byte) :
    scanEnd (s ++ t) = scanEnd s ++ t ∧ (strtoul 10 (s ++ t)).1 = (strtoul 10 s).1 := by
  have hblank : s.dropWhile isBlank ≠ [] := by
    intro hnil
    rw [scanEnd, hnil] at h
    exact h rfl
  rw [strtoul_ten, strtoul_ten, scanEnd, dropWhile_append_of_ne_nil hblank,
    signOf_append hblank]
  exact ⟨dropWhile_append_of_ne_nil h t, by rw [takeWhile_append_of_dropWhile h]⟩

/-- A NUL stops the scan. -/
theorem scanEnd_nul (s t : List Byte) : scanEnd (s ++ 0 :: t) ≠ [] ∧
    (strtoul 10 (s ++ 0 :: t)).1 = (strtoul 10 s).1 := by
  have hstop (u : List Byte) : (u ++ 0 :: t).dropWhile isDigit ≠ [] ∧
      (u ++ 0 :: t).takeWhile isDigit = u.takeWhile isDigit := by
    induction u with
    | nil => exact ⟨List.cons_ne_nil _ _, rfl⟩
    | cons b u ih =>
      rw [List.cons_append, List.dropWhile_cons, List.takeWhile_cons, List.takeWhile_cons]
      cases isDigit b with
      | false => exact ⟨List.cons_ne_nil _ _, rfl⟩
      | true =>
        simp only [if_true]
        exact ⟨ih.1, by rw [ih.2]⟩
  rw [strtoul_ten, strtoul_ten, scanEnd]
  by_cases hblank : s.dropWhile isBlank = []
  · have hnul : (s ++ 0 :: t).dropWhile isBlank = 0 :: t := by
      rw [List.dropWhile_append, hblank]
      rfl
    rw [hnul, hblank]
    exact ⟨List.cons_ne_nil _ _, rfl⟩
  · rw [dropWhile_append_of_ne_nil hblank, signOf_append hblank]
    obtain ⟨hdrop, htake⟩ := hstop (signOf (s.dropWhile isBlank)).2
    exact ⟨hdrop, by rw [htake]⟩

end

end Iot7688.Lib
