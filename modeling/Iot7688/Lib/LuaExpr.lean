import Iot7688.Lib.LuaString

/-!
Literal expressions of Lua 5.1: the texts that string.format makes of strings with %q and
of whole numbers with %.14g, and what the parser reads in strings, numerals, the constants
and table constructors of such. A number is printed with 14 significant digits, so one
that has more comes back rounded. Other expressions are refused, and so are numerals of
numbers that are not whole.
-/
namespace Iot7688.Lib.Lua

/-- A value without identities. -/
inductive Tree
  | bool (b : Bool)
  | int (n : ℤ)
  | str (s : List Byte)
  | table (entries : List (Tree × Tree))

section

def digit (d : ℕ) : Byte := (0x30 + d).toUInt8

/-- The digits of a number, the least significant one first, as a text. -/
def digitText (ds : List ℕ) : List Byte := ds.reverse.map digit

def natText (n : ℕ) : List Byte := if n = 0 then [0x30] else digitText (Nat.digits 10 n)

def zero : Byte := 0x30
def minus : Byte := 0x2d
def plus : Byte := 0x2b
def dot : Byte := 0x2e
def letterE : Byte := 0x65

/-- The nearest multiple, the even one of two. -/
def roundHalfEven (n q : ℕ) : ℕ :=
  if 2 * (n % q) < q ∨ 2 * (n % q) = q ∧ n / q % 2 = 0 then n / q else n / q + 1

/-- The exponent of the last of 14 significant digits. -/
def lastPlace (n : ℕ) : ℕ := Nat.log 10 n - 13

/-- `m` times a power of ten in the style e, without trailing zeros. -/
def scientific (m e : ℕ) : List Byte :=
  match digitText ((Nat.digits 10 m).dropWhile (· == 0)) with
  | [] => []
  | d :: ds =>
      d :: ((if ds = [] then [] else dot :: ds) ++
        letterE :: plus :: natText (e + (Nat.digits 10 m).length - 1))

/-- The number that is left of a whole number. -/
def rounded (n : ℕ) : ℕ :=
  if n < 10 ^ 14 then n else roundHalfEven n (10 ^ lastPlace n) * 10 ^ lastPlace n

/-- "%.14g" of a whole number. -/
def numberText (n : ℕ) : List Byte :=
  if n < 10 ^ 14 then natText n
  else scientific (roundHalfEven n (10 ^ lastPlace n)) (lastPlace n)

def intText (n : ℤ) : List Byte :=
  if n < 0 then minus :: numberText n.natAbs else numberText n.natAbs

def roundedInt (n : ℤ) : ℤ := if n < 0 then -rounded n.natAbs else rounded n.natAbs

/-- At most 14 significant digits. -/
def Short (n : ℕ) : Prop := ∃ m e, n = m * 10 ^ e ∧ m < 10 ^ 14

/-- The value of a text of digits. -/
def natOf (s : List Byte) : ℕ := s.foldl (fun n b => 10 * n + (b.toNat - 0x30)) 0

def isBlank (b : Byte) : Bool := b == 0x20 || 9 ≤ b && b ≤ 13

def isLetter (b : Byte) : Bool := 0x41 ≤ b && b ≤ 0x5a || 0x61 ≤ b && b ≤ 0x7a

def isName (b : Byte) : Bool := isLetter b || isDigit b || b == 0x5f

/-- The text does not go on with the numeral or name in front. -/
def stops : List Byte → Bool
  | [] => true
  | b :: _ => !(isName b || b == dot)

/-- The digits behind a point. -/
def fraction : List Byte → List Byte × List Byte
  | [] => ([], [])
  | b :: s => if b = dot then (s.takeWhile isDigit, s.dropWhile isDigit) else ([], b :: s)

def exponent : List Byte → Option (ℤ × List Byte)
  | [] => some (0, [])
  | b :: s =>
      if b = letterE ∨ b = 0x45 then
        let minusSign := s.head? = some minus
        let s := if s.head? = some minus ∨ s.head? = some plus then s.tail else s
        let ds := s.takeWhile isDigit
        if ds = [] then none
        else some (if minusSign then -natOf ds else natOf ds, s.dropWhile isDigit)
      else some (0, b :: s)

/-- The whole number with so many digits behind the point. -/
def scaled (m : ℕ) (e : ℤ) : Option ℕ :=
  if 0 ≤ e then some (m * 10 ^ e.toNat)
  else if 10 ^ (-e).toNat ∣ m then some (m / 10 ^ (-e).toNat)
  else none

def numeral (s : List Byte) : Option (ℕ × List Byte) := do
  let whole := s.takeWhile isDigit
  let (frac, s) := fraction (s.dropWhile isDigit)
  let (e, s) ← exponent s
  if whole ++ frac = [] ∨ stops s = false then none
  else
    let n ← scaled (natOf (whole ++ frac)) (e - frac.length)
    some (n, s)

def openBrace : Byte := 0x7b
def closeBrace : Byte := 0x7d
def openBracket : Byte := 0x5b
def closeBracket : Byte := 0x5d
def equals : Byte := 0x3d
def comma : Byte := 0x2c
def semicolon : Byte := 0x3b

def skipBlanks (s : List Byte) : List Byte := s.dropWhile isBlank

/-- The texts "nil", "true" and "false". -/
def nilText : List Byte := [0x6e, 0x69, 0x6c]
def trueText : List Byte := [0x74, 0x72, 0x75, 0x65]
def falseText : List Byte := [0x66, 0x61, 0x6c, 0x73, 0x65]

def constant (s : List Byte) : Option (Option Tree × List Byte) :=
  let name := s.takeWhile isName
  let rest := s.dropWhile isName
  if name = nilText then some (none, rest)
  else if name = trueText then some (some (.bool true), rest)
  else if name = falseText then some (some (.bool false), rest)
  else none

/-- One key for a table; two tables are never one. -/
def sameKey : Tree → Tree → Bool
  | .bool a, .bool b => a == b
  | .int m, .int n => m == n
  | .str s, .str t => s == t
  | _, _ => false

/-- `t[k] = v`. -/
def assign (es : List (Tree × Tree)) (k : Tree) (v : Option Tree) : List (Tree × Tree) :=
  es.filter (fun e => !sameKey e.1 k) ++ (v.map fun v => (k, v)).toList

def expect (c : Byte) (s : List Byte) : Option (List Byte) :=
  match skipBlanks s with
  | [] => none
  | b :: s => if b = c then some s else none

/-- Behind a field: a separator and what comes then, or the end. -/
def afterField (again : List Byte → Option (List (Tree × Tree) × List Byte))
    (es : List (Tree × Tree)) (s : List Byte) : Option (List (Tree × Tree) × List Byte) :=
  match skipBlanks s with
  | [] => none
  | b :: s =>
      if b = comma ∨ b = semicolon then again s
      else if b = closeBrace then some (es, s)
      else none

/-- The fields of a constructor, `n` of them with places of their own so far. -/
def fields (expr : List Byte → Option (Option Tree × List Byte)) :
    ℕ → ℕ → List (Tree × Tree) → List Byte → Option (List (Tree × Tree) × List Byte)
  | 0, _, _, _ => none
  | turns + 1, n, es, s =>
      match skipBlanks s with
      | [] => none
      | b :: r =>
          if b = closeBrace then some (es, r)
          else if b = openBracket then
            -- A second bracket or an equals sign begins a long string.
            if r.head? = some openBracket ∨ r.head? = some equals then none
            else do
              let (k, s) ← expr r
              let k ← k
              let s ← expect closeBracket s
              let s ← expect equals s
              let (v, s) ← expr s
              afterField (fields expr turns n (assign es k v)) (assign es k v) s
          else do
            let (v, s) ← expr (b :: r)
            let es := assign es (.int (n + 1 : ℕ)) v
            afterField (fields expr turns (n + 1) es) es s

/-- An expression, with so many constructors around one another at most. -/
def expr : ℕ → List Byte → Option (Option Tree × List Byte)
  | 0, _ => none
  | depth + 1, s =>
      match skipBlanks s with
      | [] => none
      | b :: r =>
          if b = quote ∨ b = apostrophe then
            (literal (b :: r)).map fun e => (some (.str e.1), e.2)
          else if b = openBrace then
            (fields (expr depth) (r.length + 1) 0 [] r).map fun e => (some (.table e.1), e.2)
          else if b = minus then
            (numeral (skipBlanks r)).map fun e => (some (.int (-e.1)), e.2)
          else if isDigit b then (numeral (b :: r)).map fun e => (some (.int e.1), e.2)
          else constant (b :: r)

/-- The value of a text that is one expression. -/
def valueOf (s : List Byte) : Option (Option Tree) := do
  let (v, rest) ← expr (s.length + 1) s
  if skipBlanks rest = [] then some v else none

/-- The text "return". -/
def returnText : List Byte := [0x72, 0x65, 0x74, 0x75, 0x72, 0x6e]

/-- What a chunk returns that is one return statement. -/
def returned (s : List Byte) : Option (Option Tree) :=
  if s.takeWhile isName = returnText then valueOf (s.dropWhile isName) else none

/-- %q of a byte. -/
def quotedByte (b : Byte) : List Byte :=
  if b = quote ∨ b = backslash ∨ b = newline then [backslash, b]
  else if b = carriageReturn then [backslash, 0x72]
  else if b = 0 then [backslash, zero, zero, zero]
  else [b]

/-- "%q". -/
def quoted (s : List Byte) : List Byte := quote :: (s.flatMap quotedByte ++ [quote])

end

example : literal (quoted [0x0a, 0x0d, 0, 0x31, 0x22]) =
    some ([0x0a, 0x0d, 0, 0x31, 0x22], []) := by
  decide

section

variable {ds : List ℕ} (hds : ∀ d ∈ ds, d < 10)

theorem digit_spec {d : ℕ} (h : d < 10) :
    isDigit (digit d) = true ∧ (digit d).toNat - 0x30 = d := by
  have hall : ∀ d < 10, isDigit (digit d) = true ∧ (digit d).toNat - 0x30 = d := by decide
  exact hall d h

theorem natOf_append (s t : List Byte) : natOf (s ++ t) = natOf s * 10 ^ t.length + natOf t := by
  induction t using List.reverseRecOn with
  | nil => simp [natOf]
  | append_singleton t b ih =>
    have hsplit : natOf (s ++ t ++ [b]) = 10 * natOf (s ++ t) + (b.toNat - 0x30) := by
      simp [natOf]
    have hlast : natOf (t ++ [b]) = 10 * natOf t + (b.toNat - 0x30) := by simp [natOf]
    rw [← List.append_assoc, hsplit, ih, hlast, List.length_append, List.length_singleton,
      Nat.pow_succ]
    ring

include hds

theorem digitText_digits : ∀ b ∈ digitText ds, isDigit b = true := by
  intro b hb
  obtain ⟨d, hd, rfl⟩ := List.mem_map.mp hb
  exact (digit_spec (hds d (List.mem_reverse.mp hd))).1

theorem natOf_digitText : natOf (digitText ds) = Nat.ofDigits 10 ds := by
  induction ds with
  | nil => rfl
  | cons d ds ih =>
    have hd := (digit_spec (hds d List.mem_cons_self)).2
    have hrest := ih fun d' hd' => hds d' (List.mem_cons_of_mem _ hd')
    have htext : digitText (d :: ds) = digitText ds ++ [digit d] := by simp [digitText]
    have hone : natOf [digit d] = d := by
      show 10 * 0 + ((digit d).toNat - 0x30) = d
      rw [hd, Nat.mul_zero, Nat.zero_add]
    rw [htext, natOf_append, hrest, hone, List.length_singleton, Nat.pow_one, Nat.ofDigits_cons]
    omega

end

theorem digits_lt (n : ℕ) : ∀ d ∈ Nat.digits 10 n, d < 10 := fun _ hd =>
  Nat.digits_lt_base (by decide) hd

theorem natText_digits (n : ℕ) : ∀ b ∈ natText n, isDigit b = true := by
  unfold natText
  split
  · exact List.all_eq_true.mp rfl
  · exact digitText_digits (digits_lt n)

theorem natOf_natText (n : ℕ) : natOf (natText n) = n := by
  unfold natText
  split
  · next h => exact h.symm
  · rw [natOf_digitText (digits_lt n), Nat.ofDigits_digits]

theorem natText_ne_nil (n : ℕ) : natText n ≠ [] := by
  unfold natText
  split
  · exact List.cons_ne_nil _ _
  · next h =>
    have hne : Nat.digits 10 n ≠ [] := Nat.digits_ne_nil_iff_ne_zero.mpr h
    simpa [digitText] using hne

/-- A text in front of something else. -/
theorem span_append (p : Byte → Bool) (s rest : List Byte) (hs : ∀ b ∈ s, p b = true)
    (hrest : ∀ b ∈ rest.head?, p b = false) :
    (s ++ rest).takeWhile p = s ∧ (s ++ rest).dropWhile p = rest := by
  have hnone : rest.takeWhile p = [] ∧ rest.dropWhile p = rest := by
    cases rest with
    | nil => exact ⟨rfl, rfl⟩
    | cons b rest =>
      have hb := hrest b rfl
      rw [List.takeWhile_cons, List.dropWhile_cons, hb]
      exact ⟨rfl, rfl⟩
  rw [List.takeWhile_append_of_pos hs, List.dropWhile_append_of_pos hs, hnone.1, hnone.2,
    List.append_nil]
  exact ⟨rfl, rfl⟩

theorem stops_cons {b : Byte} {s : List Byte} (h : stops (b :: s) = true) :
    isName b = false ∧ b ≠ dot := by
  rw [stops, Bool.not_eq_true', Bool.or_eq_false_iff] at h
  exact ⟨h.1, by simpa using h.2⟩

theorem stops_name {s : List Byte} (h : stops s = true) : ∀ b ∈ s.head?, isName b = false := by
  cases s with
  | nil => exact fun _ hb => absurd hb (by simp)
  | cons c s =>
    intro b hb
    obtain rfl : c = b := Option.some.inj hb
    exact (stops_cons h).1

theorem stops_digit {s : List Byte} (h : stops s = true) : ∀ b ∈ s.head?, isDigit b = false := by
  intro b hb
  have hname := stops_name h b hb
  unfold isName at hname
  rw [Bool.or_eq_false_iff, Bool.or_eq_false_iff] at hname
  exact hname.1.2

theorem fraction_stops {s : List Byte} (h : stops s = true) : fraction s = ([], s) := by
  cases s with
  | nil => rfl
  | cons b s => exact if_neg (stops_cons h).2

theorem exponent_stops {s : List Byte} (h : stops s = true) : exponent s = some (0, s) := by
  cases s with
  | nil => rfl
  | cons b s =>
    have hname := (stops_cons h).1
    have hletter : ¬(b = letterE ∨ b = 0x45) := by
      rintro (rfl | rfl)
      · exact absurd hname (by decide)
      · exact absurd hname (by decide)
    exact if_neg hletter

theorem numeral_natText (n : ℕ) {rest : List Byte} (h : stops rest = true) :
    numeral (natText n ++ rest) = some (n, rest) := by
  obtain ⟨htake, hdrop⟩ := span_append isDigit _ rest (natText_digits n) (stops_digit h)
  have hne : ¬(natText n ++ [] = [] ∨ stops rest = false) := by
    rw [List.append_nil, h]
    simp [natText_ne_nil]
  unfold numeral
  rw [htake, hdrop, fraction_stops h]
  dsimp only
  rw [exponent_stops h, Option.bind_eq_bind, Option.bind_some, if_neg hne, List.append_nil,
    natOf_natText]
  simp [scaled]

/-- An exponent with a sign. -/
theorem exponent_plus (n : ℕ) {rest : List Byte} (h : stops rest = true) :
    exponent (letterE :: plus :: (natText n ++ rest)) = some ((n : ℤ), rest) := by
  obtain ⟨htake, hdrop⟩ := span_append isDigit _ rest (natText_digits n) (stops_digit h)
  have hplus : ¬some plus = some minus := by decide
  unfold exponent
  simp only [true_or, if_true, List.head?_cons, hplus, if_false, or_true, List.tail_cons, htake,
    hdrop, natText_ne_nil, natOf_natText]

/-- Trailing zeros of a number as a power of ten. -/
theorem ofDigits_dropWhile (ds : List ℕ) :
    Nat.ofDigits 10 ds = Nat.ofDigits 10 (ds.dropWhile (· == 0)) *
      10 ^ (ds.length - (ds.dropWhile (· == 0)).length) := by
  induction ds with
  | nil => rfl
  | cons d ds ih =>
    by_cases hd : d = 0
    · have hle : (ds.dropWhile (· == 0)).length ≤ ds.length := (List.dropWhile_sublist _).length_le
      rw [List.dropWhile_cons_of_pos (by simpa using hd), Nat.ofDigits_cons, ih, hd,
        List.length_cons, Nat.succ_sub hle, Nat.pow_succ]
      ring
    · rw [List.dropWhile_cons_of_neg (by simpa using hd), Nat.sub_self, Nat.pow_zero, Nat.mul_one]

/-- The digits that are left without trailing zeros. -/
theorem digitText_kept {m : ℕ} (hm : m ≠ 0) :
    ∃ d tail, digitText ((Nat.digits 10 m).dropWhile (· == 0)) = d :: tail ∧
      ∀ b ∈ d :: tail, isDigit b = true := by
  have hlt : ∀ d ∈ (Nat.digits 10 m).dropWhile (· == 0), d < 10 := fun d hd =>
    digits_lt m d ((List.dropWhile_sublist _).subset hd)
  have hdigits := digitText_digits hlt
  have hne : digitText ((Nat.digits 10 m).dropWhile (· == 0)) ≠ [] := by
    intro hnil
    have hkept : (Nat.digits 10 m).dropWhile (· == 0) = [] := by simpa [digitText] using hnil
    have hvalue := ofDigits_dropWhile (Nat.digits 10 m)
    rw [hkept, Nat.ofDigits_digits] at hvalue
    exact hm (hvalue.trans (Nat.zero_mul _))
  obtain ⟨d, tail, hcons⟩ := List.exists_cons_of_ne_nil hne
  rw [hcons] at hdigits
  exact ⟨d, tail, hcons, hdigits⟩

/-- Digits behind a point, if there are any, in front of the exponent. -/
def point (tail more : List Byte) : List Byte :=
  (if tail = [] then [] else dot :: tail) ++ letterE :: more

theorem point_head (tail more : List Byte) : ∀ b ∈ (point tail more).head?, isDigit b = false := by
  intro b hb
  unfold point at hb
  split at hb
  · obtain rfl : letterE = b := Option.some.inj hb
    decide
  · obtain rfl : dot = b := Option.some.inj hb
    decide

theorem fraction_point {tail : List Byte} (htail : ∀ b ∈ tail, isDigit b = true)
    (more : List Byte) : fraction (point tail more) = (tail, letterE :: more) := by
  unfold point
  by_cases hnil : tail = []
  · rw [hnil, if_pos rfl, List.nil_append, fraction, if_neg (by decide)]
  · have hletter : ∀ b ∈ (letterE :: more).head?, isDigit b = false := by
      intro b hb
      obtain rfl : letterE = b := Option.some.inj hb
      decide
    obtain ⟨htake, hdrop⟩ := span_append isDigit tail (letterE :: more) htail hletter
    rw [if_neg hnil, List.cons_append, fraction, if_pos rfl, htake, hdrop]

theorem numeral_scientific {m e : ℕ} (hm : m ≠ 0) {rest : List Byte} (h : stops rest = true) :
    numeral (scientific m e ++ rest) = some (m * 10 ^ e, rest) := by
  set ds := Nat.digits 10 m with hds
  set kept := ds.dropWhile (· == 0) with hkept
  have hvalue : m = Nat.ofDigits 10 kept * 10 ^ (ds.length - kept.length) := by
    rw [← ofDigits_dropWhile, hds, Nat.ofDigits_digits]
  have hle : kept.length ≤ ds.length := (List.dropWhile_sublist _).length_le
  have hlt : ∀ d ∈ kept, d < 10 := fun d hd =>
    digits_lt m d ((List.dropWhile_sublist _).subset hd)
  have hnat := natOf_digitText hlt
  have hlength : (digitText kept).length = kept.length := by simp [digitText]
  obtain ⟨d, tail, htext, hdigits⟩ := digitText_kept hm
  rw [← hds, ← hkept] at htext
  rw [htext] at hnat hlength
  rw [List.length_cons] at hlength
  unfold scientific
  rw [← hds, ← hkept, htext]
  set place := e + ds.length - 1 with hplace
  have hone : ∀ b ∈ [d], isDigit b = true := by
    intro b hb
    exact hdigits b (List.mem_cons.mpr (Or.inl (List.mem_singleton.mp hb)))
  have hspan := span_append isDigit [d] _ hone
    (point_head tail (plus :: (natText place ++ rest)))
  have hfraction := fraction_point (fun b hb => hdigits b (List.mem_cons_of_mem _ hb))
    (plus :: (natText place ++ rest))
  have hscaled : scaled (natOf (d :: tail)) ((place : ℤ) - tail.length) = some (m * 10 ^ e) := by
    have hpow : ((place : ℤ) - tail.length).toNat = ds.length - kept.length + e := by omega
    rw [scaled, if_pos (by omega), hnat, hpow, Nat.pow_add, ← Nat.mul_assoc, ← hvalue]
  have hgroup : (d :: ((if tail = [] then [] else dot :: tail) ++
      letterE :: plus :: natText place)) ++ rest =
        [d] ++ point tail (plus :: (natText place ++ rest)) := by simp [point]
  dsimp only
  rw [hgroup]
  unfold numeral
  rw [hspan.1, hspan.2, hfraction]
  dsimp only
  rw [exponent_plus place h, Option.bind_eq_bind, Option.bind_some, if_neg (by simp [h]),
    List.singleton_append, hscaled]
  rfl

/-- The first of 14 significant digits. -/
theorem lastPlace_spec {n : ℕ} (h : 10 ^ 14 ≤ n) :
    10 ^ (lastPlace n + 13) ≤ n ∧ n < 10 ^ (lastPlace n + 14) := by
  have hn : n ≠ 0 := by omega
  have hlog : 14 ≤ Nat.log 10 n := Nat.le_log_of_pow_le (by decide) h
  have hplace : lastPlace n + 13 = Nat.log 10 n := by
    unfold lastPlace
    omega
  constructor
  · rw [hplace]
    exact Nat.pow_log_le_self 10 hn
  · rw [show lastPlace n + 14 = Nat.log 10 n + 1 by omega]
    exact Nat.lt_pow_succ_log_self (by decide) n

theorem roundHalfEven_bounds {n : ℕ} (h : 10 ^ 14 ≤ n) :
    0 < roundHalfEven n (10 ^ lastPlace n) ∧ roundHalfEven n (10 ^ lastPlace n) ≤ 10 ^ 14 := by
  obtain ⟨hlow, hhigh⟩ := lastPlace_spec h
  have hpos : 0 < 10 ^ lastPlace n := Nat.pow_pos (by decide)
  have hle : 10 ^ lastPlace n ≤ n := (Nat.pow_le_pow_right (by decide) (by omega)).trans hlow
  have hone : 0 < n / 10 ^ lastPlace n := Nat.div_pos hle hpos
  have hlt : n / 10 ^ lastPlace n < 10 ^ 14 := by
    rw [Nat.div_lt_iff_lt_mul hpos, ← Nat.pow_add, Nat.add_comm]
    exact hhigh
  unfold roundHalfEven
  split <;> omega

theorem rounded_short (n : ℕ) : Short (rounded n) := by
  unfold rounded
  split
  · next h => exact ⟨n, 0, (Nat.mul_one n).symm, h⟩
  · next h =>
    obtain ⟨_, hle⟩ := roundHalfEven_bounds (Nat.not_lt.mp h)
    rcases Nat.lt_or_eq_of_le hle with hlt | heq
    · exact ⟨_, _, rfl, hlt⟩
    · rw [heq, ← Nat.pow_add]
      exact ⟨1, _, (Nat.one_mul _).symm, by decide⟩

/-- A number keeps its value exactly when it has no more digits than are printed. -/
theorem rounded_eq_iff (n : ℕ) : rounded n = n ↔ Short n := by
  constructor
  · intro h
    rw [← h]
    exact rounded_short n
  · rintro ⟨m, e, heq, hm⟩
    unfold rounded
    split
    · rfl
    · next h =>
      obtain ⟨hlow, _⟩ := lastPlace_spec (Nat.not_lt.mp h)
      have hle : lastPlace n ≤ e := by
        by_contra hlt
        have hpow : 10 ^ (14 + e) ≤ 10 ^ (lastPlace n + 13) :=
          Nat.pow_le_pow_right (by decide) (by omega)
        have hmul : m * 10 ^ e < 10 ^ 14 * 10 ^ e :=
          Nat.mul_lt_mul_of_pos_right hm (Nat.pow_pos (by decide))
        rw [← heq, ← Nat.pow_add] at hmul
        omega
      have hdvd : 10 ^ lastPlace n ∣ n := by
        have hmul : 10 ^ lastPlace n ∣ m * 10 ^ e := Dvd.dvd.mul_left (Nat.pow_dvd_pow 10 hle) m
        rwa [← heq] at hmul
      have hpos : 0 < 10 ^ lastPlace n := Nat.pow_pos (by decide)
      have hexact : roundHalfEven n (10 ^ lastPlace n) = n / 10 ^ lastPlace n := by
        rw [roundHalfEven, Nat.mod_eq_zero_of_dvd hdvd, if_pos (Or.inl (by omega))]
      rw [hexact, Nat.div_mul_cancel hdvd]

theorem roundedInt_natAbs (n : ℤ) : (roundedInt n).natAbs = rounded n.natAbs := by
  unfold roundedInt
  split
  · rw [Int.natAbs_neg, Int.natAbs_natCast]
  · rw [Int.natAbs_natCast]

theorem roundedInt_of_short {n : ℤ} (h : Short n.natAbs) : roundedInt n = n := by
  rw [roundedInt, (rounded_eq_iff _).mpr h]
  split <;> omega

theorem numeral_numberText (n : ℕ) {rest : List Byte} (h : stops rest = true) :
    numeral (numberText n ++ rest) = some (rounded n, rest) := by
  unfold numberText rounded
  split
  · exact numeral_natText n h
  · next hlarge =>
    obtain ⟨hpos, _⟩ := roundHalfEven_bounds (Nat.not_lt.mp hlarge)
    exact numeral_scientific (Nat.ne_of_gt hpos) h

/-- A number begins with a digit. -/
theorem numberText_eq_cons (n : ℕ) : ∃ b s, numberText n = b :: s ∧ isDigit b = true := by
  unfold numberText
  split
  · obtain ⟨b, s, hcons⟩ := List.exists_cons_of_ne_nil (natText_ne_nil n)
    exact ⟨b, s, hcons, natText_digits n b (by rw [hcons]; exact List.mem_cons_self)⟩
  · next hlarge =>
    obtain ⟨hpos, _⟩ := roundHalfEven_bounds (Nat.not_lt.mp hlarge)
    obtain ⟨b, tail, htext, hdigits⟩ := digitText_kept (Nat.ne_of_gt hpos)
    unfold scientific
    rw [htext]
    exact ⟨b, _, rfl, hdigits b List.mem_cons_self⟩

theorem skipBlanks_cons {b : Byte} (s : List Byte) (h : isBlank b = false) :
    skipBlanks (b :: s) = b :: s := by
  rw [skipBlanks, List.dropWhile_cons, h]
  rfl

theorem skipBlanks_blank (s : List Byte) : skipBlanks (0x20 :: s) = skipBlanks s := by
  rw [skipBlanks, List.dropWhile_cons_of_pos (by decide)]
  rfl

theorem expr_blank (depth : ℕ) (s : List Byte) : expr depth (0x20 :: s) = expr depth s := by
  cases depth with
  | zero => rfl
  | succ depth =>
    unfold expr
    rw [skipBlanks_blank]

/-- A quoted text has no bare carriage return. -/
theorem quoted_head (s rest : List Byte) :
    ∀ c ∈ (s.flatMap quotedByte ++ quote :: rest).head?, c ≠ carriageReturn := by
  intro c hc
  cases s with
  | nil =>
    obtain rfl : quote = c := Option.some.inj hc
    decide
  | cons b s =>
    rw [List.flatMap_cons] at hc
    unfold quotedByte at hc
    split at hc
    · obtain rfl : backslash = c := Option.some.inj hc
      decide
    split at hc
    · obtain rfl : backslash = c := Option.some.inj hc
      decide
    split at hc
    · obtain rfl : backslash = c := Option.some.inj hc
      decide
    · next hreturn _ =>
      obtain rfl : b = c := Option.some.inj hc
      exact hreturn

theorem skipPair_of_head {b : Byte} {s : List Byte} (h : ∀ c ∈ s.head?, c ≠ carriageReturn)
    (hb : b = newline) : skipPair b s = s := by
  cases s with
  | nil => rfl
  | cons c s =>
    have hc := h c rfl
    rw [skipPair, if_neg]
    rw [hb, isNewline]
    simp [hc]

theorem readString_quoted (s rest : List Byte) :
    readString quote (s.flatMap quotedByte ++ quote :: rest) = some (s, rest) := by
  induction s with
  | nil => exact readString_end
  | cons b s ih =>
    have hdel : backslash ≠ quote := by decide
    set text := s.flatMap quotedByte ++ quote :: rest with htext
    have hescape {t : List Byte} (h : escape t = some ([b], text)) :
        readString quote (backslash :: t) = some (b :: s, rest) := by
      rw [readString_escape hdel h, ih]
      rfl
    rw [List.flatMap_cons, List.append_assoc, ← htext]
    unfold quotedByte
    split
    · next hb =>
      apply hescape
      rcases hb with rfl | rfl | rfl
      · rfl
      · rfl
      · have hpair : skipPair newline text = text := skipPair_of_head (quoted_head s rest) rfl
        show some ([newline], skipPair newline text) = some ([newline], text)
        rw [hpair]
    split
    · next hb =>
      apply hescape
      rw [hb]
      rfl
    split
    · next hb =>
      apply hescape
      rw [hb]
      rfl
    · next hplain hreturn _ =>
      rw [not_or, not_or] at hplain
      have hline : isNewline b = false := by
        rw [isNewline]
        simp [hplain.2.2, hreturn]
      rw [List.singleton_append, readString_plain hplain.1 hline hplain.2.1, ih]
      rfl

theorem expr_quoted (depth : ℕ) (s rest : List Byte) :
    expr (depth + 1) (quoted s ++ rest) = some (some (.str s), rest) := by
  have hliteral : literal (quote :: (s.flatMap quotedByte ++ quote :: rest)) = some (s, rest) := by
    rw [literal, if_pos (Or.inl rfl)]
    exact readString_quoted s rest
  have hgroup : quoted s ++ rest = quote :: (s.flatMap quotedByte ++ quote :: rest) := by
    simp [quoted]
  unfold expr
  rw [hgroup, skipBlanks_cons _ (by decide)]
  dsimp only
  rw [if_pos (Or.inl rfl), hliteral]
  rfl

theorem isDigit_spec {b : Byte} (h : isDigit b = true) :
    isBlank b = false ∧ b ≠ quote ∧ b ≠ apostrophe ∧ b ≠ openBrace ∧ b ≠ minus ∧
      b ≠ closeBrace ∧ b ≠ openBracket ∧ b ≠ equals := by
  have hne (c : Byte) (hc : isDigit c = false) : b ≠ c := by
    rintro rfl
    exact absurd h (by rw [hc]; decide)
  have hblank : isBlank b = false := by
    unfold isDigit at h
    unfold isBlank
    simp only [Bool.and_eq_true, decide_eq_true_eq, UInt8.le_iff_toNat_le] at h
    simp only [Bool.or_eq_false_iff, beq_eq_false_iff_ne, ne_eq, Bool.and_eq_false_iff,
      decide_eq_false_iff_not, UInt8.le_iff_toNat_le]
    refine ⟨hne 0x20 (by decide), Or.inr ?_⟩
    have hlow : 0x30 ≤ b.toNat := h.1
    show ¬b.toNat ≤ 13
    omega
  exact ⟨hblank, hne _ (by decide), hne _ (by decide), hne _ (by decide), hne _ (by decide),
    hne _ (by decide), hne _ (by decide), hne _ (by decide)⟩

theorem expr_intText (depth : ℕ) (n : ℤ) {rest : List Byte} (h : stops rest = true) :
    expr (depth + 1) (intText n ++ rest) = some (some (.int (roundedInt n)), rest) := by
  have hnumeral := numeral_numberText n.natAbs h
  obtain ⟨b, s, hcons, hdigit⟩ := numberText_eq_cons n.natAbs
  obtain ⟨hblank, hquote, hapostrophe, hbrace, hminus, _⟩ := isDigit_spec hdigit
  rw [hcons, List.cons_append] at hnumeral
  unfold intText roundedInt
  split
  · rw [hcons, List.cons_append, List.cons_append, expr, skipBlanks_cons _ (by decide)]
    dsimp only
    rw [if_neg (by decide), if_neg (by decide), if_pos rfl, skipBlanks_cons _ hblank, hnumeral]
    rfl
  · rw [hcons, List.cons_append, expr, skipBlanks_cons _ hblank]
    dsimp only
    rw [if_neg (by simp [hquote, hapostrophe]), if_neg hbrace, if_neg hminus, if_pos hdigit,
      hnumeral]
    rfl

/-- The texts of the constants. -/
def constantText : Option Bool → List Byte
  | none => nilText
  | some true => trueText
  | some false => falseText

theorem expr_constant (depth : ℕ) (c : Option Bool) {rest : List Byte} (h : stops rest = true) :
    expr (depth + 1) (constantText c ++ rest) = some (c.map .bool, rest) := by
  have hname : ∀ b ∈ constantText c, isName b = true := by
    rw [← List.all_eq_true]
    rcases c with _ | _ | _ <;> rfl
  obtain ⟨htake, hdrop⟩ := span_append isName _ rest hname (stops_name h)
  have hconstant : constant (constantText c ++ rest) = some (c.map .bool, rest) := by
    unfold constant
    rw [htake, hdrop]
    rcases c with _ | _ | _ <;> rfl
  rw [← hconstant]
  rcases c with _ | _ | _ <;> rfl

/-- A text that cannot be taken for the end of a table, a key or a long string. -/
structure Starts (s : List Byte) : Prop where
  ne_nil : s ≠ []
  head : ∀ b ∈ s.head?, isBlank b = false ∧ b ≠ closeBrace ∧ b ≠ openBracket ∧ b ≠ equals

theorem starts_quoted (s : List Byte) : Starts (quoted s) := by
  refine ⟨List.cons_ne_nil _ _, fun b hb => ?_⟩
  obtain rfl : quote = b := Option.some.inj hb
  decide

theorem starts_constant (c : Option Bool) : Starts (constantText c) := by
  refine ⟨by rcases c with _ | _ | _ <;> decide, fun b hb => ?_⟩
  rcases c with _ | _ | _
  all_goals
    obtain rfl := Option.some.inj hb
    decide

theorem starts_intText (n : ℤ) : Starts (intText n) := by
  obtain ⟨c, s, hcons, hdigit⟩ := numberText_eq_cons n.natAbs
  obtain ⟨hblank, _, _, _, _, hend, hkey, hlong⟩ := isDigit_spec hdigit
  unfold intText
  split
  · refine ⟨List.cons_ne_nil _ _, fun b hb => ?_⟩
    obtain rfl : minus = b := Option.some.inj hb
    decide
  · rw [hcons]
    refine ⟨List.cons_ne_nil _ _, fun b hb => ?_⟩
    obtain rfl : c = b := Option.some.inj hb
    exact ⟨hblank, hend, hkey, hlong⟩

/-- A field of a constructor as it is written, and what it stands for. -/
inductive Field
  | place (text : List Byte) (v : Option Tree)
  | keyed (key text : List Byte) (k v : Tree)

def Field.text : Field → List Byte
  | .place text _ => text
  | .keyed key text _ _ => openBracket :: key ++ closeBracket :: 0x20 :: equals :: 0x20 :: text

/-- The fields so far and their number without a key, after one more. -/
def Field.apply (st : ℕ × List (Tree × Tree)) : Field → ℕ × List (Tree × Tree)
  | .place _ v => (st.1 + 1, assign st.2 (.int (st.1 + 1 : ℕ)) v)
  | .keyed _ _ k v => (st.1, assign st.2 k (some v))

/-- The texts with a comma and a blank between any two. -/
def joined (texts : List (List Byte)) : List Byte := [comma, 0x20].intercalate texts

/-- The constructor of these fields. -/
def braced (texts : List (List Byte)) : List Byte :=
  openBrace :: 0x20 :: (joined texts ++ [0x20, closeBrace])

section

variable (read : List Byte → Option (Option Tree × List Byte))

/-- The reader takes the text as this value. -/
def ReadsAs (s : List Byte) (v : Option Tree) : Prop :=
  Starts s ∧ ∀ rest, stops rest = true → read (s ++ rest) = some (v, rest)

def Field.Reads : Field → Prop
  | .place text v => ReadsAs read text v
  | .keyed key text k v => ReadsAs read key (some k) ∧ ReadsAs read text (some v)

variable {read} (hblank : ∀ s, read (0x20 :: s) = read s)

theorem skipBlanks_starts {s : List Byte} (h : Starts s) (rest : List Byte) :
    ∃ b r, s = b :: r ∧ skipBlanks (s ++ rest) = b :: (r ++ rest) ∧ b ≠ closeBrace ∧
      b ≠ openBracket ∧ b ≠ equals := by
  obtain ⟨b, r, rfl⟩ := List.exists_cons_of_ne_nil h.ne_nil
  obtain ⟨hb, hend, hkey, hlong⟩ := h.head b rfl
  exact ⟨b, r, rfl, skipBlanks_cons _ hb, hend, hkey, hlong⟩

/-- What comes behind a field of a list. -/
def behind (texts : List (List Byte)) (rest : List Byte) : List Byte :=
  if texts = [] then 0x20 :: closeBrace :: rest
  else comma :: 0x20 :: (joined texts ++ 0x20 :: closeBrace :: rest)

theorem joined_cons (s : List Byte) (texts : List (List Byte)) (rest : List Byte) :
    joined (s :: texts) ++ 0x20 :: closeBrace :: rest = s ++ behind texts rest := by
  cases texts with
  | nil => simp [joined, behind]
  | cons t texts => simp [joined, behind, List.intercalate, List.intersperse]

theorem stops_behind (texts : List (List Byte)) (rest : List Byte) :
    stops (behind texts rest) = true := by
  unfold behind
  split <;> rfl

include hblank in
/-- The fields are read one after the other. -/
theorem fields_joined (fs : List Field) (hfs : ∀ f ∈ fs, f.Reads read) (turns : ℕ)
    (hturns : fs.length < turns) (n : ℕ) (es : List (Tree × Tree)) (rest : List Byte) :
    fields read turns n es (0x20 :: (joined (fs.map Field.text) ++ 0x20 :: closeBrace :: rest)) =
      some ((fs.foldl Field.apply (n, es)).2, rest) := by
  induction fs generalizing turns n es with
  | nil =>
    obtain ⟨turns, rfl⟩ : ∃ k, turns = k + 1 := ⟨turns - 1, by omega⟩
    rfl
  | cons f fs ih =>
    obtain ⟨turns, rfl⟩ : ∃ k, turns = k + 1 := ⟨turns - 1, by omega⟩
    rw [List.length_cons] at hturns
    have hstops := stops_behind (fs.map Field.text) rest
    have hafter (n : ℕ) (es : List (Tree × Tree)) :
        afterField (fields read turns n es) es (behind (fs.map Field.text) rest) =
          some ((fs.foldl Field.apply (n, es)).2, rest) := by
      cases fs with
      | nil => rfl
      | cons g gs =>
        exact ih (fun f hf => hfs f (List.mem_cons_of_mem _ hf)) turns (by omega) n es
    rw [List.map_cons, joined_cons, fields, skipBlanks_blank]
    cases f with
    | place text v =>
      obtain ⟨hstart, hread⟩ : ReadsAs read text v := hfs _ List.mem_cons_self
      obtain ⟨b, r, htext, hskip, hend, hkey, _⟩ :=
        skipBlanks_starts hstart (behind (fs.map Field.text) rest)
      have hvalue := hread _ hstops
      rw [htext, List.cons_append] at hvalue
      rw [Field.text, hskip]
      dsimp only
      rw [if_neg hend, if_neg hkey, hvalue, Option.bind_eq_bind, Option.bind_some]
      exact hafter _ _
    | keyed key text k v =>
      obtain ⟨⟨hstartk, hreadk⟩, hstartv, hreadv⟩ : ReadsAs read key (some k) ∧
        ReadsAs read text (some v) := hfs _ List.mem_cons_self
      obtain ⟨b, r, hkeytext, _, _, hkey, hlong⟩ := skipBlanks_starts hstartk []
      set more := text ++ behind (fs.map Field.text) rest with hmore
      have hgroup : (Field.keyed key text k v).text ++ behind (fs.map Field.text) rest =
          openBracket :: (key ++ closeBracket :: 0x20 :: equals :: 0x20 :: more) := by
        simp [Field.text, hmore]
      have hk := hreadk (closeBracket :: 0x20 :: equals :: 0x20 :: more) rfl
      have hv := hreadv _ hstops
      have hhead : ¬((key ++ closeBracket :: 0x20 :: equals :: 0x20 :: more).head? =
          some openBracket ∨ (key ++ closeBracket :: 0x20 :: equals :: 0x20 :: more).head? =
            some equals) := by
        rw [hkeytext, List.cons_append, List.head?_cons, Option.some.injEq, Option.some.injEq]
        exact not_or.mpr ⟨hkey, hlong⟩
      rw [hgroup, skipBlanks_cons _ (by decide)]
      dsimp only
      rw [if_neg (by decide), if_pos rfl, if_neg hhead, hk]
      have hfirst : expect closeBracket (closeBracket :: 0x20 :: equals :: 0x20 :: more) =
          some (0x20 :: equals :: 0x20 :: more) := rfl
      have hsecond : expect equals (0x20 :: equals :: 0x20 :: more) = some (0x20 :: more) := rfl
      simp only [Option.bind_eq_bind, Option.bind_some, hfirst, hsecond, hblank]
      rw [hmore, hv, Option.bind_some]
      exact hafter _ _

end

theorem length_le_joined {texts : List (List Byte)} (h : ∀ s ∈ texts, s ≠ []) :
    texts.length ≤ (joined texts).length := by
  induction texts with
  | nil => exact le_rfl
  | cons s texts ih =>
    have hs : 0 < s.length := List.length_pos_iff.mpr (h s List.mem_cons_self)
    have hrest := ih fun t ht => h t (List.mem_cons_of_mem _ ht)
    have hlen := congrArg List.length (joined_cons s texts [])
    rw [List.length_append, List.length_append] at hlen
    unfold behind at hlen
    split at hlen
    · next hnil =>
      subst hnil
      simp at hlen ⊢
      omega
    · simp at hlen ⊢
      omega

theorem mem_joined_length {s : List Byte} {texts : List (List Byte)} (h : s ∈ texts) :
    s.length ≤ (joined texts).length := by
  induction texts with
  | nil => exact absurd h List.not_mem_nil
  | cons t texts ih =>
    have hlen := congrArg List.length (joined_cons t texts [])
    rw [List.length_append, List.length_append] at hlen
    unfold behind at hlen
    rcases List.mem_cons.mp h with rfl | hs
    · split at hlen
      all_goals
        simp at hlen
        omega
    · have hrest := ih hs
      rw [if_neg (List.ne_nil_of_mem hs)] at hlen
      simp at hlen
      omega

theorem Field.text_ne_nil {read : List Byte → Option (Option Tree × List Byte)} {f : Field}
    (h : f.Reads read) : f.text ≠ [] := by
  cases f with
  | place text v => exact h.1.ne_nil
  | keyed key text k v => exact List.cons_ne_nil _ _

/-- A constructor whose fields are read is read. -/
theorem readsAs_braced (depth : ℕ) (fs : List Field) (hfs : ∀ f ∈ fs, f.Reads (expr depth)) :
    ReadsAs (expr (depth + 1)) (braced (fs.map Field.text))
      (some (.table (fs.foldl Field.apply (0, [])).2)) := by
  refine ⟨⟨List.cons_ne_nil _ _, fun b hb => ?_⟩, fun rest _ => ?_⟩
  · obtain rfl : openBrace = b := Option.some.inj hb
    decide
  have hgroup : braced (fs.map Field.text) ++ rest = openBrace :: 0x20 ::
      (joined (fs.map Field.text) ++ 0x20 :: closeBrace :: rest) := by
    simp [braced]
  have hcount : fs.length ≤ (joined (fs.map Field.text)).length := by
    rw [← List.length_map (f := Field.text)]
    apply length_le_joined
    intro s hs
    obtain ⟨f, hf, rfl⟩ := List.mem_map.mp hs
    exact f.text_ne_nil (hfs f hf)
  have hfields := fields_joined (expr_blank depth) fs hfs ((0x20 ::
    (joined (fs.map Field.text) ++ 0x20 :: closeBrace :: rest)).length + 1)
    (by rw [List.length_cons, List.length_append]; omega) 0 [] rest
  rw [hgroup, expr, skipBlanks_cons _ (by decide)]
  dsimp only
  rw [if_neg (by decide), if_pos rfl, hfields]
  rfl

theorem readsAs_quoted (depth : ℕ) (s : List Byte) :
    ReadsAs (expr (depth + 1)) (quoted s) (some (.str s)) :=
  ⟨starts_quoted s, fun rest _ => expr_quoted depth s rest⟩

theorem readsAs_intText (depth : ℕ) (n : ℤ) :
    ReadsAs (expr (depth + 1)) (intText n) (some (.int (roundedInt n))) :=
  ⟨starts_intText n, fun _ h => expr_intText depth n h⟩

theorem readsAs_constant (depth : ℕ) (c : Option Bool) :
    ReadsAs (expr (depth + 1)) (constantText c) (c.map .bool) :=
  ⟨starts_constant c, fun _ h => expr_constant depth c h⟩

/-- A text that is read with a depth beyond its length is an expression. -/
theorem returned_of_readsAs {s : List Byte} {v : Option Tree}
    (h : ∀ depth, s.length < depth → ReadsAs (expr depth) s v) :
    returned (returnText ++ 0x20 :: s) = some v := by
  have hname : ∀ b ∈ returnText, isName b = true := List.all_eq_true.mp rfl
  have hspan := span_append isName returnText (0x20 :: s) hname (fun b hb => by
    obtain rfl : 0x20 = b := Option.some.inj hb
    decide)
  have hread := (h ((0x20 :: s).length + 1) (by rw [List.length_cons]; omega)).2 [] rfl
  rw [List.append_nil] at hread
  unfold returned valueOf
  rw [hspan.1, hspan.2, if_pos rfl, expr_blank, hread]
  rfl

end Iot7688.Lib.Lua
