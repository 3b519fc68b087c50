import Iot7688.Lib.Digits
import Iot7688.Lib.Utf8
import Iot7688.Template

/-!
The string functions of the template library: utf8 replaces what is no valid sequence,
pcdata also writes characters of markup as entities, and striptags takes tags out. Strings
are the bytes that the length covers; buffers are large enough. utf8 takes a string apart
into groups, a byte with the continuation bytes behind it, and keeps a group or makes it a
question mark; there is no test for the sequences of four bytes above U+10FFFF.
-/
namespace Iot7688.Template

open Lib

def question : Byte := 0x3f

/-- The number of chars that a byte announces. -/
def mbNumChars (c : Byte) : ℕ :=
  if c &&& 0xE0 = 0xC0 then 2
  else if c &&& 0xF0 = 0xE0 then 3
  else if c &&& 0xF8 = 0xF0 then 4
  else if c &&& 0xFC = 0xF8 then 5
  else if c &&& 0xFE = 0xFC then 6
  else 1

def mbIsCont (c : Byte) : Bool := 0x80 ≤ c && c ≤ 0xBF

/-- Tests of bytes at offsets, made one after the other as long as they hold. -/
def passes (s : List Byte) : List (ℕ × (Byte → Bool)) → Option Bool
  | [] => some true
  | test :: tests =>
      match s[test.1]? with
      | none => none
      | some b => if test.2 b then passes s tests else some false

def followTest (b : Byte) : Bool := b >>> 6 == 0x02

/-- The tests for a form that is longer than it has to be. -/
def longFormTests : ℕ → List (ℕ × (Byte → Bool))
  | 2 => [(0, fun b => b >>> 1 == 0x60), (1, followTest)]
  | 3 => [(0, fun b => b == 0xE0), (1, fun b => b >>> 5 == 0x04), (2, followTest)]
  | 4 => [(0, fun b => b == 0xF0), (1, fun b => b >>> 4 == 0x08), (2, followTest), (3, followTest)]
  | 5 => [(0, fun b => b == 0xF8), (1, fun b => b >>> 3 == 0x10), (2, followTest), (3, followTest),
      (4, followTest)]
  | 6 => [(0, fun b => b == 0xF8), (1, fun b => b >>> 2 == 0x20), (2, followTest), (3, followTest),
      (4, followTest), (5, followTest)]
  | _ => []

def mbIsShortest (s : List Byte) (n : ℕ) : Option Bool :=
  if longFormTests n = [] then some true else (passes s (longFormTests n)).map not

def mbIsSurrogate (s : List Byte) (n : ℕ) : Option Bool :=
  if n = 3 then passes s [(0, fun b => b == 0xED), (1, fun b => 0xA0 ≤ b), (1, fun b => b ≤ 0xBF)]
  else some false

def mbIsIllegal (s : List Byte) (n : ℕ) : Option Bool :=
  if n = 3 then
    passes s [(0, fun b => b == 0xEF), (1, fun b => b == 0xBF), (2, fun b => 0xBE ≤ b),
      (2, fun b => b ≤ 0xBF)]
  else some false

/-- The sequence is legal: the three tests in a row. -/
def isLegal (s : List Byte) (n : ℕ) : Option Bool :=
  (mbIsShortest s n).bind fun shortest =>
    if shortest then
      (mbIsSurrogate s n).bind fun surrogate =>
        if surrogate then some false else (mbIsIllegal s n).map not
    else some false

/-- The loop that counts valid chars, with the turns left to it. -/
def countValid (s : List Byte) (l : ℕ) : ℕ → ℕ → Option ℕ
  | 0, v => some v
  | turns + 1, v =>
      if v < l then
        match s[v]? with
        | none => none
        | some c => if mbIsCont c then countValid s l turns (v + 1) else some v
      else some v

def isAscii (c : Byte) : Bool := 0x01 ≤ c && c ≤ 0x7F

/-- _validate_utf8 at the start of a string: how many bytes it passes, and its output. -/
def validateUtf8 (s : List Byte) (l : ℕ) : Option (ℕ × List Byte) :=
  match s[0]? with
  | none => none
  | some c =>
      let n := mbNumChars c
      if isAscii c then some (1, [c])
      else if n > 1 then
        (countValid s l n 1).bind fun v =>
          if n = 6 ∨ n = 5 then some (v, [question])
          else if v = n then
            (isLegal s n).map fun legal => (v, if legal then s.take n else [question])
          else some (v, [question])
      else some (1, [question])

/-- The loop of utf8 and pcdata from an offset on, for a number of turns; a turn passes
some bytes and has some output. -/
def scanFrom (turn : List Byte → ℕ → Option (ℕ × List Byte)) (s : List Byte) (l : ℕ) :
    ℕ → ℕ → Option (List Byte)
  | 0, _ => none
  | turns + 1, o =>
      if o < l then
        (turn (s.drop o) (l - o)).bind fun r =>
          (scanFrom turn s l turns (o + r.1)).map fun out => r.2 ++ out
      else some []

def utf8Turn (s : List Byte) (l : ℕ) : Option (ℕ × List Byte) :=
  match s[0]? with
  | none => none
  | some c => if isAscii c then some (1, [c]) else validateUtf8 s l

def utf8 (s : List Byte) : Option (List Byte) := scanFrom utf8Turn s s.length (s.length + 1) 0

/-- Invalid XML bytes. -/
def isInvalidXml (c : Byte) : Bool :=
  c ≤ 0x08 || (0x0B ≤ c && c ≤ 0x0C) || (0x0E ≤ c && c ≤ 0x1F) || c == 0x7F

def isMarkup (c : Byte) : Bool := c == 0x26 || c == 0x27 || c == 0x22 || c == 0x3C || c == 0x3E

/-- snprintf with "&#%i;". -/
def numericEntity (c : Byte) : List Byte := ascii "&#" ++ ascii (toString c.toNat) ++ ascii ";"

def pcdataTurn (s : List Byte) (l : ℕ) : Option (ℕ × List Byte) :=
  match s[0]? with
  | none => none
  | some c =>
      if isInvalidXml c then some (1, [])
      else if isMarkup c then some (1, numericEntity c)
      else if c ≤ 0x7F then some (1, [c])
      else validateUtf8 s l

def pcdata (s : List Byte) : Option (List Byte) := scanFrom pcdataTurn s s.length (s.length + 1) 0

def isAlpha (c : Byte) : Bool := (0x41 ≤ c && c ≤ 0x5A) || (0x61 ≤ c && c ≤ 0x7A)

/-- The bytes behind the end of a tag, if it has one. -/
def behindTag : List Byte → Option (List Byte)
  | [] => none
  | c :: s => if c = 0x3E then some s else behindTag s

/-- A tag may begin here. -/
def startsTag : List Byte → Bool
  | a :: b :: _ :: _ => a == 0x3C && (b == 0x2F || isAlpha b)
  | _ => false

/-- The loop of striptags with the byte before, for a number of turns. -/
def stripFrom : ℕ → Byte → List Byte → List Byte
  | 0, _, _ => []
  | _ + 1, _, [] => []
  | turns + 1, prev, c :: s =>
      if startsTag (c :: s) then
        match behindTag (c :: s) with
        | some rest => (if isSpace prev then [] else [0x20]) ++ stripFrom turns 0x20 rest
        | none => stripFrom turns prev s
      else if isSpace c then (if isSpace prev then [] else [c]) ++ stripFrom turns c s
      else (if isMarkup c then numericEntity c else [c]) ++ stripFrom turns c s

def striptags (s : List Byte) : List Byte := stripFrom s.length 0x20 s

open Lib Utf8

/-- What the loop passes at once in front of the rest of a string. -/
inductive Group : List Byte → List Byte → Prop
  | single {b : Byte} {rest : List Byte} : mbNumChars b = 1 → Group [b] rest
  | multi {b : Byte} {conts rest : List Byte} : 1 < mbNumChars b → (∀ c ∈ conts, Tail c) →
      conts.length ≤ mbNumChars b → (conts.length < mbNumChars b → Fresh rest) →
      Group (b :: conts) rest

inductive Groups : List (List Byte) → List Byte → Prop
  | nil : Groups [] []
  | cons {p rest : List Byte} {ps : List (List Byte)} : Group p rest → Groups ps rest →
      Groups (p :: ps) (p ++ rest)

/-- A group that stays as it is. -/
def keeps : List Byte → Bool
  | [] => false
  | b :: conts => isAscii b && conts.isEmpty || (1 < mbNumChars b && mbNumChars b ≤ 4 &&
      conts.length + 1 == mbNumChars b && isLegal (b :: conts) (mbNumChars b) == some true)

/-- What a group becomes. -/
def mended (p : List Byte) : List Byte := if keeps p then p else [question]

/-- A sequence for a number above U+10FFFF. -/
inductive Beyond : List Byte → Prop
  | four {b c d e : Byte} : (b = 0xf4 ∧ 0x90 ≤ c ∨ 0xf5 ≤ b ∧ b ≤ 0xf7) → Tail c → Tail d → Tail e →
      Beyond [b, c, d, e]

/-- A string that begins with one, which no continuation byte follows. -/
def TooLarge (s : List Byte) : Prop := ∃ p rest, s = p ++ rest ∧ Beyond p ∧ Fresh rest

/-- U+FFFE and U+FFFF. -/
def nonCharacters : List (List Byte) := [[0xef, 0xbf, 0xbe], [0xef, 0xbf, 0xbf]]

theorem mbNumChars_eq (b : Byte) : mbNumChars b =
    if b < 0xc0 then 1 else if b < 0xe0 then 2 else if b < 0xf0 then 3 else if b < 0xf8 then 4
    else if b < 0xfc then 5 else if b < 0xfe then 6 else 1 := by
  revert b
  apply forall_byte
  decide

theorem shift_tests (b : Byte) : (b >>> 1 == 0x60) = decide (b = 0xc0 ∨ b = 0xc1) ∧
    followTest b = decide (Tail b) ∧ (b >>> 5 == 0x04) = decide (0x80 ≤ b ∧ b ≤ 0x9f) ∧
    (b >>> 4 == 0x08) = decide (0x80 ≤ b ∧ b ≤ 0x8f) := by
  revert b
  apply forall_byte
  decide

theorem mbIsCont_iff (b : Byte) : mbIsCont b = true ↔ Tail b := by
  simp [mbIsCont, Tail]

/-- The continuation bytes in front of a string, up to a number of them. -/
theorem exists_tails (n : ℕ) (s : List Byte) : ∃ conts rest, s = conts ++ rest ∧
    (∀ c ∈ conts, Tail c) ∧ conts.length ≤ n ∧ (conts.length < n → Fresh rest) := by
  induction n generalizing s with
  | zero => exact ⟨[], s, rfl, by simp, le_rfl, by simp⟩
  | succ n ih =>
    cases s with
    | nil => exact ⟨[], [], rfl, by simp, by simp, fun _ b hb => by cases hb⟩
    | cons c s =>
      by_cases hc : Tail c
      · obtain ⟨conts, rest, rfl, htails, hle, hfresh⟩ := ih s
        refine ⟨c :: conts, rest, rfl, ?_, ?_, ?_⟩
        · exact List.forall_mem_cons.mpr ⟨hc, htails⟩
        · exact Nat.succ_le_succ hle
        · exact fun h => hfresh (Nat.lt_of_succ_lt_succ h)
      · refine ⟨[], c :: s, rfl, by simp, by simp, fun _ b hb => ?_⟩
        cases hb
        exact hc

/-- A group takes in all continuation bytes that it can. -/
theorem exists_group (b : Byte) (s : List Byte) : ∃ p rest, b :: s = p ++ rest ∧ Group p rest := by
  by_cases hn : mbNumChars b = 1
  · exact ⟨[b], s, rfl, .single hn⟩
  have hmany : 1 < mbNumChars b := by
    rw [mbNumChars_eq] at hn ⊢
    grind
  obtain ⟨conts, rest, rfl, htails, hle, hfresh⟩ := exists_tails (mbNumChars b) s
  exact ⟨b :: conts, rest, rfl, .multi hmany htails hle hfresh⟩

theorem Group.ne_nil {p rest : List Byte} (h : Group p rest) : p ≠ [] := by
  cases h <;> exact List.cons_ne_nil _ _

theorem exists_groups (s : List Byte) : ∃ ps, Groups ps s := by
  induction hn : s.length using Nat.strong_induction_on generalizing s with
  | _ n ih =>
    cases s with
    | nil => exact ⟨[], .nil⟩
    | cons b s =>
      obtain ⟨p, rest, heq, hp⟩ := exists_group b s
      have hlen := congrArg List.length heq
      have hpos := List.length_pos_of_ne_nil hp.ne_nil
      rw [List.length_append] at hlen
      obtain ⟨ps, hps⟩ := ih rest.length (by omega) rest rfl
      rw [heq]
      exact ⟨p :: ps, .cons hp hps⟩

theorem passes_append {p : List Byte} {tests : List (ℕ × (Byte → Bool))}
    (h : ∀ test ∈ tests, test.1 < p.length) (rest : List Byte) :
    passes (p ++ rest) tests = passes p tests := by
  induction tests with
  | nil => rfl
  | cons test tests ih =>
    rw [List.forall_mem_cons] at h
    rw [passes, passes, List.getElem?_append_left h.1, ih h.2]

/-- The tests for n bytes look at no more of them. -/
theorem isLegal_append {p : List Byte} {n : ℕ} (hn : n ≤ p.length) (h4 : n ≤ 4) (rest : List Byte) :
    isLegal (p ++ rest) n = isLegal p n := by
  have hlong : ∀ test ∈ longFormTests n, test.1 < p.length := by
    intro test htest
    obtain rfl | rfl | rfl | rfl | rfl : n = 0 ∨ n = 1 ∨ n = 2 ∨ n = 3 ∨ n = 4 := by omega
    all_goals
      simp only [longFormTests, List.mem_cons, List.not_mem_nil, or_false] at htest
    all_goals
      obtain rfl | rfl | rfl | rfl := htest <;> dsimp only <;> omega
  have hsurrogate : mbIsSurrogate (p ++ rest) n = mbIsSurrogate p n := by
    unfold mbIsSurrogate
    split
    · apply passes_append
      intro test htest
      simp only [List.mem_cons, List.not_mem_nil, or_false] at htest
      obtain rfl | rfl | rfl := htest <;> dsimp only <;> omega
    · rfl
  have hillegal : mbIsIllegal (p ++ rest) n = mbIsIllegal p n := by
    unfold mbIsIllegal
    split
    · apply passes_append
      intro test htest
      simp only [List.mem_cons, List.not_mem_nil, or_false] at htest
      obtain rfl | rfl | rfl | rfl := htest <;> dsimp only <;> omega
    · rfl
  rw [isLegal, isLegal, mbIsShortest, mbIsShortest, passes_append hlong, hsurrogate, hillegal]

theorem isLegal_two {b c : Byte} (hc : Tail c) :
    isLegal [b, c] 2 = some (decide ¬(b = 0xc0 ∨ b = 0xc1)) := by
  have hb := (shift_tests b).1
  have hfollow := (shift_tests c).2.1
  by_cases hlong : b = 0xc0 ∨ b = 0xc1 <;>
    simp [isLegal, mbIsShortest, mbIsSurrogate, mbIsIllegal, longFormTests, passes, hb, hfollow, hc,
      hlong]

theorem isLegal_three {b c d : Byte} (hc : Tail c) (hd : Tail d) :
    isLegal [b, c, d] 3 = some (decide (¬(b = 0xe0 ∧ c ≤ 0x9f) ∧ ¬(b = 0xed ∧ 0xa0 ≤ c) ∧
      ¬(b = 0xef ∧ c = 0xbf ∧ 0xbe ≤ d))) := by
  have hb := (shift_tests c).2.2.1
  have hfollow := (shift_tests d).2.1
  have hlow := hc.1
  have hhigh := hc.2
  have hlast := hd.2
  by_cases h0 : b = 0xe0
  · subst h0
    by_cases hlong : c ≤ 0x9f <;>
      simp [isLegal, mbIsShortest, mbIsSurrogate, mbIsIllegal, longFormTests, passes, hb, hfollow, hd,
        hlow, hlong]
  by_cases h1 : b = 0xed
  · subst h1
    by_cases hlong : 0xa0 ≤ c <;>
      simp [isLegal, mbIsShortest, mbIsSurrogate, mbIsIllegal, longFormTests, passes, hhigh, hlong]
  by_cases h2 : b = 0xef
  · subst h2
    by_cases hnot : c = 0xbf <;> by_cases hlong : 0xbe ≤ d <;>
      simp [isLegal, mbIsShortest, mbIsSurrogate, mbIsIllegal, longFormTests, passes, hlast, hnot,
        hlong]
  simp [isLegal, mbIsShortest, mbIsSurrogate, mbIsIllegal, longFormTests, passes, h0, h1, h2]

theorem isLegal_four {b c d e : Byte} (hc : Tail c) (hd : Tail d) (he : Tail e) :
    isLegal [b, c, d, e] 4 = some (decide ¬(b = 0xf0 ∧ c ≤ 0x8f)) := by
  have hb := (shift_tests c).2.2.2
  have hd' := (shift_tests d).2.1
  have he' := (shift_tests e).2.1
  have hlow := hc.1
  by_cases h0 : b = 0xf0 <;> by_cases hlong : c ≤ 0x8f <;>
    simp [isLegal, mbIsShortest, mbIsSurrogate, mbIsIllegal, longFormTests, passes, hb, hd', he', hd,
      he, hlow, h0, hlong]

/-- A byte with one to three continuation bytes. -/
theorem exists_conts {conts : List Byte} (hlow : 1 ≤ conts.length) (hhigh : conts.length ≤ 3) :
    (∃ c, conts = [c]) ∨ (∃ c d, conts = [c, d]) ∨ ∃ c d e, conts = [c, d, e] := by
  obtain hlen | hlen | hlen : conts.length = 1 ∨ conts.length = 2 ∨ conts.length = 3 := by omega
  · exact .inl (List.length_eq_one_iff.mp hlen)
  · exact .inr (.inl (List.length_eq_two.mp hlen))
  · exact .inr (.inr (List.length_eq_three.mp hlen))

theorem isLegal_total {b : Byte} {conts : List Byte} {n : ℕ} (hmany : 1 < n) (hfour : n ≤ 4)
    (hlength : (b :: conts).length = n) (htails : ∀ c ∈ conts, Tail c) :
    ∃ legal, isLegal (b :: conts) n = some legal := by
  subst hlength
  rw [List.length_cons] at hmany hfour
  obtain ⟨c, rfl⟩ | ⟨c, d, rfl⟩ | ⟨c, d, e, rfl⟩ :=
    exists_conts (Nat.le_of_lt_succ hmany) (Nat.le_of_succ_le_succ hfour)
  · exact ⟨_, isLegal_two (htails c (by simp))⟩
  · exact ⟨_, isLegal_three (htails c (by simp)) (htails d (by simp))⟩
  · exact ⟨_, isLegal_four (htails c (by simp)) (htails d (by simp)) (htails e (by simp))⟩

theorem countValid_group {s conts rest : List Byte} {turns v : ℕ} (hv : v ≤ s.length)
    (hdrop : s.drop v = conts ++ rest) (htails : ∀ c ∈ conts, Tail c) (hle : conts.length ≤ turns)
    (hfresh : conts.length < turns → Fresh rest) :
    countValid s s.length turns v = some (v + conts.length) := by
  induction turns generalizing v conts with
  | zero =>
    rw [List.length_eq_zero_iff.mp (Nat.le_zero.mp hle)]
    rfl
  | succ turns ih =>
    have hhead : s[v]? = (conts ++ rest).head? := by rw [← hdrop, List.head?_drop]
    have hlength : (conts ++ rest).length = s.length - v := by rw [← hdrop, List.length_drop]
    rw [countValid]
    cases conts with
    | nil =>
      rw [List.nil_append] at hhead hlength
      split
      next hlt =>
        obtain ⟨c, rest, rfl⟩ := List.exists_cons_of_length_pos (show 0 < rest.length by omega)
        have hc : mbIsCont c = false := by
          rw [← Bool.not_eq_true, mbIsCont_iff]
          exact hfresh (Nat.zero_lt_succ turns) c rfl
        simp [hhead, hc]
      next => rfl
    | cons c conts =>
      rw [List.forall_mem_cons] at htails
      have hlt : v < s.length := by
        simp only [List.cons_append, List.length_cons] at hlength
        omega
      have hdrop' : s.drop (v + 1) = conts ++ rest := by
        rw [← List.drop_drop, hdrop]
        rfl
      have hrest := ih hlt hdrop' htails.2 (Nat.le_of_succ_le_succ hle)
        fun h => hfresh (Nat.succ_lt_succ h)
      simp only [hlt, if_true, hhead, List.cons_append, List.head?_cons, (mbIsCont_iff c).mpr htails.1,
        hrest, List.length_cons, Option.some.injEq]
      omega

theorem isAscii_iff (b : Byte) : isAscii b = true ↔ b ≠ 0 ∧ b < 0x80 := by
  revert b
  apply forall_byte
  decide

/-- _validate_utf8 passes one group, within the string, and has it mended. -/
theorem validateUtf8_group {p rest : List Byte} (h : Group p rest) :
    validateUtf8 (p ++ rest) (p ++ rest).length = some (p.length, mended p) := by
  cases h with
  | @single b rest hone =>
    have hmany : ¬mbNumChars b > 1 := by omega
    rw [validateUtf8]
    by_cases hascii : isAscii b = true
    · simp [hascii, mended, keeps]
    · simp [hascii, hmany, mended, keeps]
  | @multi b conts rest hmany htails hle hfresh =>
    have hascii : isAscii b = false := by
      rw [← Bool.not_eq_true, isAscii_iff]
      rw [mbNumChars_eq] at hmany
      grind
    have hcount := countValid_group (s := b :: conts ++ rest) (v := 1) (by simp) rfl htails hle hfresh
    rw [validateUtf8]
    simp only [List.cons_append, List.getElem?_cons_zero, hascii, hmany, if_true,
      Bool.false_eq_true, if_false]
    rw [← List.cons_append, hcount, Option.bind_some]
    by_cases hlong : mbNumChars b = 6 ∨ mbNumChars b = 5
    · have hkeeps : keeps (b :: conts) = false := by
        have hbig : ¬mbNumChars b ≤ 4 := by omega
        simp [keeps, hascii, hbig]
      simp [hlong, mended, hkeeps, Nat.add_comm]
    have hfour : mbNumChars b ≤ 4 := by
      rw [mbNumChars_eq] at hlong ⊢
      grind
    rw [if_neg hlong]
    by_cases hall : 1 + conts.length = mbNumChars b
    · have hlength : (b :: conts).length = mbNumChars b := (Nat.add_comm _ _).trans hall
      have hshort : conts.length + 1 = mbNumChars b := hlength
      obtain ⟨legal, hlegal⟩ := isLegal_total hmany hfour hlength htails
      have htake : (b :: conts ++ rest).take (mbNumChars b) = b :: conts := by
        rw [← hlength, List.take_left]
      rw [if_pos hall, isLegal_append hlength.ge hfour, hlegal, htake]
      cases legal <;> simp [mended, keeps, hascii, hmany, hfour, hshort, hlegal, Nat.add_comm]
    · have hkeeps : keeps (b :: conts) = false := by
        have hlength : ¬conts.length + 1 = mbNumChars b := by omega
        simp [keeps, hascii, hlength]
      rw [if_neg hall, mended, hkeeps]
      simp [Nat.add_comm]

theorem scanFrom_groups {turn : List Byte → ℕ → Option (ℕ × List Byte)}
    {out : List Byte → List Byte}
    (hturn : ∀ {p rest}, Group p rest → turn (p ++ rest) (p ++ rest).length = some (p.length, out p))
    {s rest : List Byte} {ps : List (List Byte)} (hps : Groups ps rest) {turns o : ℕ}
    (hdrop : s.drop o = rest) (ho : o ≤ s.length) (hturns : rest.length < turns) :
    scanFrom turn s s.length turns o = some (ps.flatMap out) := by
  induction hps generalizing turns o with
  | nil =>
    obtain ⟨turns, rfl⟩ := Nat.exists_eq_succ_of_ne_zero (Nat.ne_of_gt hturns)
    have hend : ¬o < s.length := by
      rw [List.drop_eq_nil_iff] at hdrop
      omega
    rw [scanFrom, if_neg hend]
    rfl
  | @cons p rest ps hp hps ih =>
    obtain ⟨turns, rfl⟩ := Nat.exists_eq_succ_of_ne_zero (Nat.ne_of_gt (Nat.zero_lt_of_lt hturns))
    have hlength : s.length - o = (p ++ rest).length := by rw [← hdrop, List.length_drop]
    have hpos := List.length_pos_of_ne_nil hp.ne_nil
    have hdrop' : s.drop (o + p.length) = rest := by
      rw [← List.drop_drop, hdrop, List.drop_left]
    rw [List.length_append] at hlength hturns
    have hrest := ih hdrop' (by omega) (show rest.length < turns by omega)
    rw [scanFrom, if_pos (by omega), hdrop, hlength, ← List.length_append, hturn hp, Option.bind_some,
      hrest]
    rfl

theorem utf8_groups {s : List Byte} {ps : List (List Byte)} (h : Groups ps s) :
    utf8 s = some (ps.flatMap mended) := by
  refine scanFrom_groups (fun {p rest} hp => ?_) h rfl (Nat.zero_le _) (Nat.lt_succ_self _)
  have hvalid := validateUtf8_group hp
  rw [utf8Turn]
  rw [validateUtf8] at hvalid ⊢
  cases hb : (p ++ rest)[0]? with
  | none => simp [hb] at hvalid
  | some b =>
    by_cases hascii : isAscii b = true
    · simpa [hb, hascii] using hvalid
    · simpa [hb, hascii] using hvalid

theorem keeps_other {b : Byte} {conts : List Byte} (h : ¬(1 ≤ conts.length ∧ conts.length ≤ 3)) :
    keeps (b :: conts) = (isAscii b && conts.isEmpty) := by
  have hlong : ¬(1 < mbNumChars b ∧ mbNumChars b ≤ 4 ∧ conts.length + 1 = mbNumChars b) := by omega
  simp only [keeps]
  grind

theorem keeps_cons {b : Byte} {conts : List Byte} (hlow : 1 ≤ conts.length)
    (hhigh : conts.length ≤ 3) : keeps (b :: conts) = true ↔ mbNumChars b = conts.length + 1 ∧
      isLegal (b :: conts) (conts.length + 1) = some true := by
  have hempty : conts.isEmpty = false := by
    rw [List.isEmpty_eq_false_iff]
    exact List.ne_nil_of_length_pos hlow
  simp only [keeps, hempty, Bool.and_false, Bool.false_or, Bool.and_eq_true, decide_eq_true_eq,
    beq_iff_eq]
  constructor
  · rintro ⟨⟨-, hlen⟩, hlegal⟩
    rw [← hlen] at hlegal
    exact ⟨hlen.symm, hlegal⟩
  · rintro ⟨hlen, hlegal⟩
    rw [hlen]
    exact ⟨⟨⟨Nat.lt_add_of_pos_left hlow, by omega⟩, rfl⟩, hlegal⟩

theorem beyond_iff {b c d e : Byte} : Beyond [b, c, d, e] ↔
    (b = 0xf4 ∧ 0x90 ≤ c ∨ 0xf5 ≤ b ∧ b ≤ 0xf7) ∧ Tail c ∧ Tail d ∧ Tail e :=
  ⟨fun h => by cases h with | four hlarge hc hd he => exact ⟨hlarge, hc, hd, he⟩,
    fun h => .four h.1 h.2.1 h.2.2.1 h.2.2.2⟩

theorem keeps_two {b c : Byte} (hc : Tail c) : keeps [b, c] = true ↔
    (Character [b, c] ∧ b ≠ 0 ∨ Beyond [b, c]) ∧ [b, c] ∉ nonCharacters := by
  have hbeyond : ¬Beyond [b, c] := fun h => by cases h
  have hother : [b, c] ∉ nonCharacters := by simp [nonCharacters]
  rw [keeps_cons (by simp) (by simp), mbNumChars_eq, List.length_singleton, isLegal_two hc,
    character_two_iff, Option.some.injEq, decide_eq_true_eq]
  grind

theorem keeps_three {b c d : Byte} (hc : Tail c) (hd : Tail d) : keeps [b, c, d] = true ↔
    (Character [b, c, d] ∧ b ≠ 0 ∨ Beyond [b, c, d]) ∧ [b, c, d] ∉ nonCharacters := by
  have hbeyond : ¬Beyond [b, c, d] := fun h => by cases h
  have hlength : [c, d].length = 2 := rfl
  have hother : [b, c, d] ∈ nonCharacters ↔ b = 0xef ∧ c = 0xbf ∧ (d = 0xbe ∨ d = 0xbf) := by
    simp only [nonCharacters, List.mem_cons, List.cons.injEq, List.not_mem_nil, and_true, or_false]
    tauto
  rw [keeps_cons (by simp) (by simp), mbNumChars_eq, hlength, isLegal_three hc hd,
    character_three_iff, Option.some.injEq, decide_eq_true_eq, hother]
  have hsecond : 0x80 ≤ c ∧ c ≤ 0xbf := hc
  have hlast : 0x80 ≤ d ∧ d ≤ 0xbf := hd
  grind

theorem keeps_four {b c d e : Byte} (hc : Tail c) (hd : Tail d) (he : Tail e) :
    keeps [b, c, d, e] = true ↔ (Character [b, c, d, e] ∧ b ≠ 0 ∨ Beyond [b, c, d, e]) ∧
      [b, c, d, e] ∉ nonCharacters := by
  have hlength : [c, d, e].length = 3 := rfl
  have hother : [b, c, d, e] ∉ nonCharacters := by simp [nonCharacters]
  rw [keeps_cons (by simp) (by simp), mbNumChars_eq, hlength, isLegal_four hc hd he,
    character_four_iff, beyond_iff, Option.some.injEq, decide_eq_true_eq]
  have hsecond : 0x80 ≤ c ∧ c ≤ 0xbf := hc
  grind

/-- What stays: a character but NUL and the two numbers that are none, or a sequence that
is too large. -/
theorem keeps_iff {b : Byte} {conts : List Byte} (htails : ∀ c ∈ conts, Tail c) :
    keeps (b :: conts) = true ↔ (Character (b :: conts) ∧ b ≠ 0 ∨ Beyond (b :: conts)) ∧
      b :: conts ∉ nonCharacters := by
  by_cases hlen : 1 ≤ conts.length ∧ conts.length ≤ 3
  · obtain ⟨c, rfl⟩ | ⟨c, d, rfl⟩ | ⟨c, d, e, rfl⟩ := exists_conts hlen.1 hlen.2
    · exact keeps_two (htails c (by simp))
    · exact keeps_three (htails c (by simp)) (htails d (by simp))
    · exact keeps_four (htails c (by simp)) (htails d (by simp)) (htails e (by simp))
  · rw [keeps_other hlen]
    have hbeyond : ¬Beyond (b :: conts) := fun h => by
      cases h
      simp at hlen
    cases conts with
    | nil =>
      have hother : [b] ∉ nonCharacters := by simp [nonCharacters]
      rw [List.isEmpty_nil, Bool.and_true, isAscii_iff, character_one_iff]
      simp only [hother, hbeyond, or_false, not_false_eq_true, and_true]
      exact and_comm
    | cons c conts =>
      have hchar : ¬Character (b :: c :: conts) := fun h => hlen (by cases h <;> simp)
      simp [hchar, hbeyond]

theorem Group.tails {b : Byte} {conts rest : List Byte} (h : Group (b :: conts) rest) :
    ∀ c ∈ conts, Tail c := by
  cases h with
  | single _ => exact fun c hc => by cases hc
  | multi _ htails _ _ => exact htails

/-- A group that stays is as long as its first byte says. -/
theorem keeps_length {b : Byte} {conts : List Byte} (h : keeps (b :: conts) = true) :
    conts.length + 1 = mbNumChars b ∧ mbNumChars b = charLength b ∧ ¬Tail b ∧ b ≠ 0 := by
  unfold charLength Tail
  by_cases hlen : 1 ≤ conts.length ∧ conts.length ≤ 3
  · have hmany := ((keeps_cons hlen.1 hlen.2).mp h).1
    rw [mbNumChars_eq] at hmany ⊢
    grind
  · rw [keeps_other hlen, Bool.and_eq_true, isAscii_iff, List.isEmpty_iff] at h
    obtain ⟨hascii, rfl⟩ := h
    rw [mbNumChars_eq]
    grind

theorem exists_mended {p rest : List Byte} (h : Group p rest) : ∃ b conts,
    mended p = b :: conts ∧ keeps (b :: conts) = true ∧ ∀ c ∈ conts, Tail c := by
  obtain ⟨b, conts, rfl⟩ := List.exists_cons_of_ne_nil h.ne_nil
  unfold mended
  split
  next hkeeps => exact ⟨b, conts, rfl, hkeeps, h.tails⟩
  next => exact ⟨question, [], rfl, by decide, fun c hc => by cases hc⟩

theorem fresh_mended {ps : List (List Byte)} {s : List Byte} (h : Groups ps s) :
    Fresh (ps.flatMap mended) := by
  cases h with
  | nil => exact fun b hb => by cases hb
  | @cons p rest ps hp _ =>
    obtain ⟨b, conts, heq, hkeeps, -⟩ := exists_mended hp
    intro c hc
    rw [List.flatMap_cons, heq] at hc
    cases hc
    exact (keeps_length hkeeps).2.2.1

/-- The output falls into the same groups, mended. -/
theorem groups_mended {ps : List (List Byte)} {s : List Byte} (h : Groups ps s) :
    Groups (ps.map mended) (ps.flatMap mended) := by
  induction h with
  | nil => exact .nil
  | @cons p rest ps hp hps ih =>
    rw [List.map_cons, List.flatMap_cons]
    refine .cons ?_ ih
    obtain ⟨b, conts, heq, hkeeps, htails⟩ := exists_mended hp
    rw [heq]
    have hlength := (keeps_length hkeeps).1
    by_cases hone : mbNumChars b = 1
    · obtain rfl : conts = [] := List.eq_nil_of_length_eq_zero (by omega)
      exact .single hone
    · exact .multi (by omega) htails (by omega) fun _ => fresh_mended hps

theorem mended_mended (p : List Byte) : mended (mended p) = mended p := by
  have hquestion : keeps [question] = true := by decide
  by_cases hkeeps : keeps p = true <;> simp [mended, hkeeps, hquestion]

theorem flatMap_mended (ps : List (List Byte)) :
    (ps.map mended).flatMap mended = ps.flatMap mended := by
  rw [List.flatMap_map]
  exact congrArg (fun f => ps.flatMap f) (funext mended_mended)

theorem Group.zero_not_mem {p rest : List Byte} (h : Group p rest) : 0 ∉ mended p := by
  obtain ⟨b, conts, heq, hkeeps, htails⟩ := exists_mended h
  rw [heq, List.mem_cons]
  rintro (hb | hc)
  · exact (keeps_length hkeeps).2.2.2 hb.symm
  · exact absurd (htails 0 hc) (by decide)

theorem zero_not_mem_mended {ps : List (List Byte)} {s : List Byte} (h : Groups ps s) :
    0 ∉ ps.flatMap mended := by
  induction h with
  | nil => exact List.not_mem_nil
  | cons hp _ ih =>
    rw [List.flatMap_cons, List.mem_append, not_or]
    exact ⟨hp.zero_not_mem, ih⟩

theorem Beyond.not_character {p : List Byte} (h : Beyond p) : ¬Character p := by
  cases h with
  | four hlarge _ _ _ =>
    rw [character_four_iff]
    grind

theorem Beyond.keeps {p : List Byte} (h : Beyond p) : keeps p = true := by
  have hother : p ∉ nonCharacters := by
    cases h
    simp [nonCharacters]
  cases h with
  | four hlarge hc hd he =>
    exact (keeps_iff (by simp [hc, hd, he])).mpr ⟨.inr (.four hlarge hc hd he), hother⟩

/-- What is mended is a character, or is too large. -/
theorem character_mended {p rest : List Byte} (h : Group p rest) :
    Character (mended p) ↔ ¬Beyond p := by
  by_cases hkeeps : keeps p = true
  · rw [mended, if_pos hkeeps]
    obtain ⟨b, conts, rfl⟩ := List.exists_cons_of_ne_nil h.ne_nil
    have hstays := ((keeps_iff h.tails).mp hkeeps).1
    exact ⟨fun hchar hbeyond => hbeyond.not_character hchar,
      fun hbeyond => (hstays.resolve_right hbeyond).1⟩
  · rw [mended, if_neg hkeeps]
    exact iff_of_true (.one (by decide)) fun hbeyond => hkeeps hbeyond.keeps

theorem wellFormed_mended {ps : List (List Byte)} {s : List Byte} (h : Groups ps s) :
    WellFormed (ps.flatMap mended) ↔ ∀ p ∈ ps, ¬Beyond p := by
  induction h with
  | nil => exact iff_of_true .nil fun p hp => by cases hp
  | @cons p rest ps hp _ ih =>
    rw [List.flatMap_cons, List.forall_mem_cons, ← ih, ← character_mended hp]
    constructor
    · intro hwf
      obtain ⟨b, conts, heq, hkeeps, -⟩ := exists_mended hp
      obtain ⟨hlength, hchars, -⟩ := keeps_length hkeeps
      rw [heq] at hwf ⊢
      exact hwf.of_append (hlength.trans hchars)
    · exact fun hwf => .cons hwf.1 hwf.2

/-- In a well-formed string a group is a character. -/
theorem Group.character {p rest : List Byte} (h : Group p rest) (hwf : WellFormed (p ++ rest)) :
    Character p ∧ WellFormed rest := by
  obtain ⟨b, conts, rfl⟩ := List.exists_cons_of_ne_nil h.ne_nil
  generalize hwhole : b :: conts ++ rest = whole at hwf
  cases hwf with
  | nil => cases hwhole
  | @cons char s hchar hs =>
    obtain ⟨c, tail, rfl⟩ := List.exists_cons_of_ne_nil hchar.ne_nil
    obtain ⟨rfl, heq⟩ := List.cons.inj hwhole
    have hlead : mbNumChars b = charLength b := by
      have hfirst := hchar.lead
      rw [mbNumChars_eq]
      unfold charLength
      cases hchar <;> grind
    have hlength := hchar.length
    cases h with
    | single hone =>
      obtain rfl : tail = [] := List.eq_nil_of_length_eq_zero (by omega)
      obtain rfl : rest = s := heq
      exact ⟨hchar, hs⟩
    | multi _ htails _ hfresh =>
      obtain ⟨rfl, rfl⟩ :=
        tails_unique heq.symm hchar.tails htails hs.fresh fun hle => hfresh (by omega)
      exact ⟨hchar, hs⟩

/-- A well-formed string without NUL and the two numbers stays as it is. -/
theorem mended_of_wellFormed {ps : List (List Byte)} {s : List Byte} (h : Groups ps s)
    (hwf : WellFormed s) (hzero : 0 ∉ s) (hnon : ∀ p ∈ nonCharacters, ¬p <:+: s) :
    ps.flatMap mended = s := by
  induction h with
  | nil => rfl
  | @cons p rest ps hp _ ih =>
    obtain ⟨hchar, hrest⟩ := hp.character hwf
    obtain ⟨b, conts, rfl⟩ := List.exists_cons_of_ne_nil hp.ne_nil
    rw [List.mem_append, List.mem_cons, not_or, not_or] at hzero
    have hother : b :: conts ∉ nonCharacters :=
      fun hmem => hnon _ hmem (List.prefix_append _ rest).isInfix
    have hkeeps : keeps (b :: conts) = true :=
      (keeps_iff hp.tails).mpr ⟨.inl ⟨hchar, Ne.symm hzero.1.1⟩, hother⟩
    have hrest' := ih hrest hzero.2 fun p hmem hpart =>
      hnon p hmem (hpart.trans (List.suffix_append _ rest).isInfix)
    rw [List.flatMap_cons, hrest', mended, if_pos hkeeps]

theorem tooLarge_of_mem {ps : List (List Byte)} {s p : List Byte} (h : Groups ps s) (hp : p ∈ ps)
    (hbeyond : Beyond p) : ∃ t, t <:+ s ∧ TooLarge t := by
  induction h with
  | nil => cases hp
  | @cons q rest ps hq _ ih =>
    cases hp with
    | head =>
      refine ⟨p ++ rest, List.suffix_refl _, p, rest, rfl, hbeyond, ?_⟩
      cases hbeyond with
      | four hlarge _ _ _ =>
        cases hq with
        | multi _ _ _ hfresh =>
          apply hfresh
          rw [mbNumChars_eq]
          grind
    | tail _ hp =>
      obtain ⟨t, ht, hlarge⟩ := ih hp
      exact ⟨t, ht.trans (List.suffix_append q rest), hlarge⟩

theorem Beyond.lead {p : List Byte} (h : Beyond p) :
    ∃ b conts, p = b :: conts ∧ (0xf4 ≤ b ∧ b ≤ 0xf7) ∧ conts.length = 3 ∧ ∀ c ∈ conts, Tail c := by
  cases h with
  | @four b c d e hlarge hc hd he => exact ⟨b, [c, d, e], rfl, by grind, rfl, by simp [hc, hd, he]⟩

theorem Group.beyond {q p rest rest' : List Byte} (h : Group q rest) (heq : q ++ rest = p ++ rest')
    (hbeyond : Beyond p) (hfresh : Fresh rest') : q = p := by
  obtain ⟨b, conts, rfl, hb, hlength, htails⟩ := hbeyond.lead
  have hfour : mbNumChars b = 4 := by
    rw [mbNumChars_eq]
    grind
  cases h with
  | single hone =>
    obtain ⟨rfl, -⟩ := List.cons.inj heq
    omega
  | multi _ htails' _ hfresh' =>
    obtain ⟨rfl, hrest⟩ := List.cons.inj heq
    obtain ⟨rfl, -⟩ := tails_unique hrest.symm htails htails' hfresh fun hle => hfresh' (by omega)
    rfl

/-- A sequence that is too large is a group wherever it stands. -/
theorem mem_of_tooLarge {ps : List (List Byte)} {s t : List Byte} (h : Groups ps s) (ht : t <:+ s)
    (hlarge : TooLarge t) : ∃ p ∈ ps, Beyond p := by
  obtain ⟨p, rest', rfl, hbeyond, hfresh⟩ := hlarge
  refine ⟨p, ?_, hbeyond⟩
  induction h with
  | nil =>
    rw [List.suffix_nil, List.append_eq_nil_iff] at ht
    obtain ⟨rfl, -⟩ := ht
    cases hbeyond
  | @cons q rest ps hq _ ih =>
    obtain ⟨front, heq⟩ := ht
    obtain ⟨back, rfl, hback⟩ | ⟨c, rfl, rfl⟩ := List.append_eq_append_iff.mp heq
    · rcases back with _ | ⟨x, back⟩
      · exact List.mem_cons_of_mem _ (ih (hback ▸ List.suffix_refl _))
      rcases front with _ | ⟨y, front⟩
      · rw [List.nil_append] at hq ⊢
        rw [hq.beyond hback.symm hbeyond hfresh]
        exact List.mem_cons_self
      · have htail : Tail x := hq.tails x (by simp)
        obtain ⟨b, conts, rfl, hb, -⟩ := hbeyond.lead
        obtain ⟨rfl, -⟩ := List.cons.inj hback
        exact absurd htail.2 (by grind)
    · exact List.mem_cons_of_mem _ (ih (List.suffix_append c _))

/-- A string becomes well-formed, what is fine in it stays, and a second pass changes
nothing, unless a number above U+10FFFF is in it. -/
theorem utf8_iff (s : List Byte) :
    (∃ out, utf8 s = some out ∧ WellFormed out ∧ 0 ∉ out ∧
      (WellFormed s → 0 ∉ s → (∀ p ∈ nonCharacters, ¬p <:+: s) → out = s) ∧ utf8 out = some out) ↔
    ¬∃ t, t <:+ s ∧ TooLarge t := by
  obtain ⟨ps, hps⟩ := exists_groups s
  have hout := utf8_groups hps
  have hwf := wellFormed_mended hps
  constructor
  · rintro ⟨out, heq, hgood, -⟩ ⟨t, ht, hlarge⟩
    obtain ⟨p, hp, hbeyond⟩ := mem_of_tooLarge hps ht hlarge
    obtain rfl : ps.flatMap mended = out := Option.some.inj (hout.symm.trans heq)
    exact hwf.mp hgood p hp hbeyond
  · intro hnone
    refine ⟨_, hout, hwf.mpr ?_, zero_not_mem_mended hps, mended_of_wellFormed hps, ?_⟩
    · exact fun p hp hbeyond => hnone (tooLarge_of_mem hps hp hbeyond)
    · rw [utf8_groups (groups_mended hps), flatMap_mended]

/-- The number U+110000 is passed on. -/
theorem utf8_above_unicode :
    ¬∃ out, utf8 [0xf4, 0x90, 0x80, 0x80] = some out ∧ WellFormed out := by
  rintro ⟨out, heq, hwf⟩
  have hsame : utf8 [0xf4, 0x90, 0x80, 0x80] = some [0xf4, 0x90, 0x80, 0x80] := by decide
  obtain rfl : [0xf4, 0x90, 0x80, 0x80] = out := Option.some.inj (hsame.symm.trans heq)
  have hchar :=
    (WellFormed.of_append (b := 0xf4) (s := [0x90, 0x80, 0x80]) (t := []) hwf (by decide)).1
  exact absurd (character_four_iff.mp hchar).2.2.1 (by decide)

end Iot7688.Template
