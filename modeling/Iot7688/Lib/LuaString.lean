import Iot7688.Lib.Memory

/-!
String literals of Lua 5.1 as its lexer reads them, from the delimiter on: the value and
the text behind. A line break that is not escaped, an escaped number above 255 and the
end of the text leave it unfinished.
-/
namespace Iot7688.Lib.Lua

def quote : Byte := 0x22
def apostrophe : Byte := 0x27
def backslash : Byte := 0x5c
def newline : Byte := 0x0a
def carriageReturn : Byte := 0x0d

def isNewline (b : Byte) : Bool := b == newline || b == carriageReturn
def isDigit (b : Byte) : Bool := 0x30 ≤ b && b ≤ 0x39

/-- The letters that stand for control characters. -/
def controls : List (Byte × Byte) :=
  [(0x61, 7), (0x62, 8), (0x66, 12), (0x6e, 10), (0x72, 13), (0x74, 9), (0x76, 11)]

/-- Behind a line break, its second half. -/
def skipPair (b : Byte) : List Byte → List Byte
  | [] => []
  | c :: s => if isNewline c && c != b then s else c :: s

/-- A number of so many digits at most. -/
def decimal : ℕ → ℕ → List Byte → ℕ × List Byte
  | 0, c, s => (c, s)
  | _ + 1, c, [] => (c, [])
  | n + 1, c, b :: s => if isDigit b then decimal n (10 * c + (b.toNat - 0x30)) s else (c, b :: s)

/-- What comes behind a backslash. -/
def escape : List Byte → Option (List Byte × List Byte)
  | [] => some ([], [])
  | b :: s =>
      match controls.lookup b with
      | some c => some ([c], s)
      | none =>
          if isNewline b then some ([newline], skipPair b s)
          else if isDigit b then
            let r := decimal 3 0 (b :: s)
            if 255 < r.1 then none else some ([r.1.toUInt8], r.2)
          else some ([b], s)

/-- The loop of read_string, for a number of turns. -/
def readLoop (del : Byte) : ℕ → List Byte → Option (List Byte × List Byte)
  | 0, _ => none
  | _ + 1, [] => none
  | turns + 1, b :: s =>
      if b = del then some ([], s)
      else if isNewline b then none
      else if b = backslash then
        (escape s).bind fun e => (readLoop del turns e.2).map fun r => (e.1 ++ r.1, r.2)
      else (readLoop del turns s).map fun r => (b :: r.1, r.2)

/-- read_string behind the delimiter. -/
def readString (del : Byte) (s : List Byte) : Option (List Byte × List Byte) :=
  readLoop del (s.length + 1) s

/-- The literal that a text begins with. -/
def literal : List Byte → Option (List Byte × List Byte)
  | [] => none
  | del :: s => if del = quote ∨ del = apostrophe then readString del s else none

example : literal [0x22, 0x5c, 0x36, 0x35, 0x5c, 0x6e, 0x5c, 0x22, 0x22, 0x29] =
    some ([65, 10, 0x22], [0x29]) := by decide

theorem skipPair_length (b : Byte) (s : List Byte) : (skipPair b s).length ≤ s.length := by
  cases s with
  | nil => exact le_rfl
  | cons c s =>
    rw [skipPair]
    split
    · exact Nat.le_succ _
    · exact le_rfl

theorem decimal_length (n c : ℕ) (s : List Byte) : (decimal n c s).2.length ≤ s.length := by
  induction n generalizing c s with
  | zero => exact le_rfl
  | succ n ih =>
    cases s with
    | nil => exact le_rfl
    | cons b s =>
      rw [decimal]
      split
      · exact (ih _ _).trans (Nat.le_succ _)
      · exact le_rfl

theorem escape_length {s : List Byte} {e : List Byte × List Byte} (h : escape s = some e) :
    e.2.length ≤ s.length := by
  cases s with
  | nil =>
    cases h
    exact le_rfl
  | cons b s =>
    rw [escape] at h
    cases hc : controls.lookup b with
    | some c =>
      rw [hc] at h
      cases h
      exact Nat.le_succ _
    | none =>
      rw [hc] at h
      dsimp only at h
      split at h
      · cases h
        exact (skipPair_length b s).trans (Nat.le_succ _)
      · split at h
        · split at h
          · cases h
          · cases h
            exact decimal_length 3 0 (b :: s)
        · cases h
          exact Nat.le_succ _

/-- Turns beyond the length of the text make no difference. -/
theorem readLoop_turns {del : Byte} {turns turns' : ℕ} {s : List Byte} (h : s.length < turns)
    (h' : s.length < turns') : readLoop del turns s = readLoop del turns' s := by
  induction turns generalizing turns' s with
  | zero => omega
  | succ turns ih =>
    obtain ⟨turns', rfl⟩ : ∃ k, turns' = k + 1 := ⟨turns' - 1, by omega⟩
    cases s with
    | nil => rfl
    | cons b s =>
      rw [List.length_cons] at h h'
      have hplain : readLoop del turns s = readLoop del turns' s := ih (by omega) (by omega)
      have hescape : ((escape s).bind fun e =>
            (readLoop del turns e.2).map fun r => (e.1 ++ r.1, r.2)) =
          (escape s).bind fun e => (readLoop del turns' e.2).map fun r => (e.1 ++ r.1, r.2) := by
        cases he : escape s with
        | none => rfl
        | some e =>
          have hlen := escape_length he
          have hrest : readLoop del turns e.2 = readLoop del turns' e.2 := ih (by omega) (by omega)
          rw [Option.bind_some, Option.bind_some, hrest]
      unfold readLoop
      rw [hplain, hescape]

section

variable {del b : Byte} {s : List Byte}

theorem readString_end : readString del (del :: s) = some ([], s) := if_pos rfl

theorem readString_newline (hdel : b ≠ del) (hb : isNewline b = true) :
    readString del (b :: s) = none := by
  unfold readString readLoop
  rw [if_neg hdel, if_pos hb]

theorem readString_plain (hdel : b ≠ del) (hline : isNewline b = false) (hslash : b ≠ backslash) :
    readString del (b :: s) = (readString del s).map fun r => (b :: r.1, r.2) := by
  unfold readString
  rw [readLoop, if_neg hdel, hline, if_neg Bool.false_ne_true, if_neg hslash, List.length_cons]

theorem readString_escape (hdel : backslash ≠ del) {e : List Byte × List Byte}
    (he : escape s = some e) : readString del (backslash :: s) =
      (readString del e.2).map fun r => (e.1 ++ r.1, r.2) := by
  have hlen := escape_length he
  have hrest : readLoop del (s.length + 1) e.2 = readString del e.2 :=
    readLoop_turns (by omega) (by omega)
  unfold readString
  rw [List.length_cons, readLoop, if_neg hdel, if_neg (by decide), if_pos rfl, he, Option.bind_some,
    hrest]
  rfl

end

end Iot7688.Lib.Lua
