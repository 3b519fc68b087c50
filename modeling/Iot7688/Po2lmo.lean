import Iot7688.Lmo

/-!
The converter from PO to catalog files: main reads line by line and puts keys and values
together in buffers of 4096 bytes. A call that would write behind a buffer is an
overrun, after which nothing is known. Entries are separated by blank lines; the bytes of
their literals are described apart from the way the converter reads them.
-/
namespace Iot7688.Po2lmo

open Lib Lmo
open Template (ascii)

def bufferSize : ℕ := 4096

def newline : Byte := 0x0a
def quote : Byte := 0x22
def backslash : Byte := 0x5c

def strlen (m : Mem) : ℕ := skip (fun b => b != 0) m bufferSize 0

def zeros : Mem := fun _ => 0

/-- The loop of extract_string from a position on: off is the start of the text less the
escapes that were dropped. -/
def extractLoop : List Byte → ℕ → Option ℕ → Bool → Mem → Mem × Option ℕ
  | [], _, off, _, dest => (dest, off)
  | c :: src, pos, off, esc, dest =>
      if bufferSize ≤ pos then (dest, off)
      else
        match off with
        | none => extractLoop src (pos + 1) (if c = quote then some (pos + 1) else none) esc dest
        | some o =>
            if esc then
              let o := if c = quote ∨ c = backslash then o + 1 else o
              extractLoop src (pos + 1) (some o) false (Function.update dest (pos - o) c)
            else if c = backslash then
              extractLoop src (pos + 1) (some o) true (Function.update dest (pos - o) c)
            else if c = quote then (Function.update dest (pos - o) 0, some o)
            else extractLoop src (pos + 1) (some o) false (Function.update dest (pos - o) c)

/-- The buffer and the result; none for -1. -/
def extractString (src : List Byte) (dest : Mem) : Mem × Option ℕ :=
  let (dest, off) := extractLoop src 0 none false dest
  (dest, off.map fun _ => strlen dest)

def strcat (dest src : Mem) : Option Mem :=
  if strlen dest + strlen src < bufferSize then
    some (dest.copy (strlen dest) (strlen src + 1) src)
  else none

/-- The lines that fgets returns one after the other, with the part of a line that was
read and the room that is left for it. -/
def fgetsLines : List Byte → ℕ → List Byte → List (List Byte)
  | line, _, [] => if line = [] then [] else [line]
  | line, room, c :: input =>
      if c = newline ∨ room ≤ 1 then (line ++ [c]) :: fgetsLines [] (bufferSize - 1) input
      else fgetsLines (line ++ [c]) (room - 1) input

structure LmoEntry where
  keyId : UInt32
  valId : UInt32
  offset : UInt32
  length : UInt32

structure PoState where
  key : Mem
  val : Mem
  tmp : Mem
  state : ℕ
  offset : ℕ
  array : List LmoEntry
  out : List Byte

inductive Stop
  | died
  | overrun
deriving DecidableEq

def cstr (m : Mem) : List Byte := slice m 0 (strlen m)

def startsWith (line : List Byte) (s : String) : Bool := (ascii s).isPrefixOf line

/-- The length of a value with its padding. -/
def padded (n : ℕ) : ℕ := n + (4 - n % 4) % 4

/-- An entry that is complete is written, if it has a key and a value and their hashes
differ. -/
def storeEntry (s : PoState) : PoState :=
  let key := cstr s.key
  let val := cstr s.val
  let stored :=
    if 0 < strlen s.key ∧ 0 < strlen s.val ∧ sfhHash key ≠ sfhHash val then
      let entry : LmoEntry :=
        ⟨sfhHash key, sfhHash val, UInt32.ofNat s.offset, UInt32.ofNat (strlen s.val)⟩
      { s with
        array := s.array ++ [entry]
        out := s.out ++ slice s.val 0 (padded (strlen s.val))
        offset := s.offset + padded (strlen s.val) }
    else s
  { stored with state := 0, key := zeros, val := zeros }

/-- The state machine on a line. -/
def scanLine (line : List Byte) (s : PoState) : Except Stop PoState :=
  if s.state = 0 ∧ startsWith line "msgid \"" then
    let (key, n) := extractString line s.key
    match n with
    | none => .error .died
    | some 0 => .ok { s with key := key, state := 1 }
    | some _ => .ok { s with key := key, state := 2 }
  else if s.state = 1 ∨ s.state = 2 then
    if startsWith line "msgstr \"" ∨ s.state = 2 then
      let (val, n) := extractString line s.val
      .ok { s with val := val, state := if n = none then 4 else 3 }
    else
      let (tmp, n) := extractString line s.tmp
      match n with
      | none => .ok { s with tmp := tmp, state := 2 }
      | some _ =>
          match strcat s.key tmp with
          | none => .error .overrun
          | some key => .ok { s with tmp := tmp, key := key }
  else if s.state = 3 then
    let (tmp, n) := extractString line s.tmp
    match n with
    | none => .ok { s with tmp := tmp, state := 4 }
    | some _ =>
        match strcat s.val tmp with
        | none => .error .overrun
        | some val => .ok { s with tmp := tmp, val := val }
  else .ok s

/-- A round of the loop; the line ends at its first NUL. -/
def scan (line : List Byte) (s : PoState) : Except Stop PoState := do
  let s ← scanLine (line.takeWhile fun b => b != 0) s
  if s.state = 4 then .ok (storeEntry s) else .ok s

/-- At the end of the input the loop goes on with an empty line while an entry is not
complete; one round completes it. -/
def scanAll : List (List Byte) → PoState → Except Stop PoState
  | [], s => if 2 ≤ s.state then scan [] s else .ok s
  | line :: lines, s => do
      let s ← scan line s
      scanAll lines s

def entryBytes (e : LmoEntry) : List Byte :=
  be32 e.keyId ++ be32 e.valId ++ be32 e.offset ++ be32 e.length

/-- The array as qsort leaves it. -/
def sortIndex (array : List LmoEntry) : List LmoEntry :=
  array.insertionSort fun a b => a.keyId ≤ b.keyId

def indexBytes (array : List LmoEntry) : List Byte := (sortIndex array).flatMap entryBytes

/-- The output file; no file is left where there is no value. -/
def po2lmo (stack : Mem) (input : List Byte) : Except Stop (Option (List Byte)) := do
  let s ← scanAll (fgetsLines [] (bufferSize - 1) input) ⟨zeros, zeros, stack, 0, 0, [], []⟩
  .ok (if 0 < s.offset then
    some (s.out ++ indexBytes s.array ++ be32 (UInt32.ofNat s.offset)) else none)

/-- A byte of a literal, or a backslash and a byte. -/
inductive PoItem
  | plain (b : Byte) (h : b ≠ 0 ∧ b ≠ newline ∧ b ≠ quote ∧ b ≠ backslash)
  | escaped (b : Byte) (h : b ≠ 0 ∧ b ≠ newline)

namespace PoItem

def bytes : PoItem → List Byte
  | plain b _ => [b]
  | escaped b _ => [backslash, b]

/-- Quotes and backslashes lose their escape, other escapes stay. -/
def text : PoItem → List Byte
  | plain b _ => [b]
  | escaped b _ => if b = quote ∨ b = backslash then [b] else [backslash, b]

theorem text_clean (item : PoItem) : 0 ∉ item.text := by
  have hbackslash : (0 : Byte) ≠ backslash := by decide
  cases item with
  | plain b h => simpa [text] using h.1.symm
  | escaped b h =>
    unfold text
    dsimp only
    split <;> simp [h.1.symm, hbackslash]

theorem bytes_clean (item : PoItem) : 0 ∉ item.bytes ∧ newline ∉ item.bytes := by
  have hbackslash : (0 : Byte) ≠ backslash ∧ newline ≠ backslash := by decide
  cases item with
  | plain b h => exact ⟨by simpa [bytes] using h.1.symm, by simpa [bytes] using h.2.1.symm⟩
  | escaped b h =>
    exact ⟨by simp [bytes, h.1.symm, hbackslash], by simp [bytes, h.2.symm, hbackslash]⟩

end PoItem

abbrev Literal := List PoItem

def Literal.bytes (l : Literal) : List Byte := List.flatMap PoItem.bytes l
def Literal.text (l : Literal) : List Byte := List.flatMap PoItem.text l

/-- A line with a literal. -/
def literalLine (keyword : String) (l : Literal) : List Byte :=
  ascii keyword ++ quote :: (l.bytes ++ [quote, newline])

/-- The memory starts with these bytes. -/
def Starts (m : Mem) (s : List Byte) : Prop := ∀ i, (h : i < s.length) → m i = s[i]

/-- A buffer with a string. -/
structure CStr (m : Mem) (s : List Byte) : Prop where
  starts : Starts m s
  nul : m s.length = 0
  clean : 0 ∉ s
  room : s.length < bufferSize

theorem Starts.snoc {m : Mem} {s : List Byte} (h : Starts m s) (c : Byte) :
    Starts (Function.update m s.length c) (s ++ [c]) := by
  intro i hi
  rw [List.length_append] at hi
  rcases Nat.lt_or_ge i s.length with hlt | hge
  · rw [Function.update_of_ne (by omega), List.getElem_append_left hlt]
    exact h i hlt
  · obtain rfl : i = s.length := by
      simp only [List.length_cons, List.length_nil] at hi
      omega
    rw [Function.update_self, List.getElem_append_right (le_refl _)]
    simp

/-- What is written behind the bytes leaves them. -/
theorem Starts.update {m : Mem} {s : List Byte} (h : Starts m s) {i : ℕ} (hi : s.length ≤ i)
    (c : Byte) : Starts (Function.update m i c) s := by
  intro k hk
  rw [Function.update_of_ne (by omega)]
  exact h k hk

theorem Starts.slice {m : Mem} {s : List Byte} (h : Starts m s) : slice m 0 s.length = s := by
  refine List.ext_getElem (by rw [slice_length, Nat.sub_zero]) fun i hi hi' => ?_
  rw [slice_getElem, Nat.zero_add]
  exact h i hi'

namespace CStr

variable {m : Mem} {s : List Byte}

theorem strlen (h : CStr m s) : strlen m = s.length := by
  refine skip_eq bufferSize 0 (Nat.zero_le _) (by have := h.room; omega) (fun i _ hi => ?_)
    fun _ => ?_
  · rw [h.starts i hi]
    have hne : s[i] ≠ 0 := fun h0 => h.clean (h0 ▸ List.getElem_mem hi)
    simpa using hne
  · rw [h.nul]
    rfl

theorem cstr (h : CStr m s) : cstr m = s := by
  unfold Po2lmo.cstr
  rw [h.strlen]
  exact h.starts.slice

theorem zeros : CStr zeros [] :=
  ⟨fun i h => absurd h (by simp), rfl, by simp, by decide⟩

theorem strcat {m' : Mem} {s' : List Byte} (h : CStr m s) (h' : CStr m' s')
    (hroom : (s ++ s').length < bufferSize) :
    ∃ m'', strcat m m' = some m'' ∧ CStr m'' (s ++ s') := by
  have hlen : (s ++ s').length = s.length + s'.length := List.length_append
  unfold Po2lmo.strcat
  rw [h.strlen, h'.strlen, if_pos (by omega)]
  refine ⟨_, rfl, fun i hi => ?_, ?_, ?_, hroom⟩
  · rcases Nat.lt_or_ge i s.length with hlt | hge
    · rw [Mem.copy_outside _ _ (Or.inl hlt), List.getElem_append_left hlt]
      exact h.starts i hlt
    · obtain ⟨k, rfl⟩ := Nat.exists_eq_add_of_le hge
      rw [Mem.copy_inside _ _ (by omega), List.getElem_append_right hge]
      simp only [Nat.add_sub_cancel_left]
      exact h'.starts k (by omega)
  · rw [hlen, Mem.copy_inside _ _ (by omega)]
    exact h'.nul
  · rw [List.mem_append]
    rintro (hs | hs')
    · exact h.clean hs
    · exact h'.clean hs'

end CStr

/-- The loop inside a literal, with the text so far in the buffer. -/
theorem extractLoop_items (items : Literal) (rest : List Byte) {pos : ℕ} (o : ℕ) {dest : Mem}
    {t : List Byte} (hstarts : Starts dest t) (hpos : pos = o + t.length)
    (hroom : pos + items.bytes.length < bufferSize) :
    ∃ dest' o', extractLoop (items.bytes ++ quote :: rest) pos (some o) false dest =
      (dest', some o') ∧ Starts dest' (t ++ items.text) ∧
        dest' (t ++ items.text).length = 0 := by
  have hquote : ¬quote = backslash := by decide
  induction items generalizing pos o dest t with
  | nil =>
    refine ⟨Function.update dest t.length 0, o, ?_, ?_, ?_⟩
    · show extractLoop (quote :: rest) pos (some o) false dest = _
      unfold extractLoop
      rw [if_neg (by omega)]
      dsimp only
      rw [if_neg Bool.false_ne_true, if_neg hquote, if_pos rfl, hpos, Nat.add_sub_cancel_left]
    · rw [Literal.text, List.flatMap_nil, List.append_nil]
      exact hstarts.update (le_refl _) 0
    · rw [Literal.text, List.flatMap_nil, List.append_nil, Function.update_self]
  | cons item items ih =>
    have hbytes : Literal.bytes (item :: items) = item.bytes ++ Literal.bytes items :=
      List.flatMap_cons
    have htext : t ++ Literal.text (item :: items) = t ++ item.text ++ Literal.text items := by
      rw [List.append_assoc]
      exact congrArg _ List.flatMap_cons
    rw [hbytes] at hroom ⊢
    rw [htext]
    rw [List.length_append] at hroom
    cases item with
    | plain b h =>
      obtain ⟨_, _, hnotQuote, hnotBackslash⟩ := h
      have hstep : extractLoop ([b] ++ Literal.bytes items ++ quote :: rest) pos (some o) false dest =
          extractLoop (Literal.bytes items ++ quote :: rest) (pos + 1) (some o) false
            (Function.update dest t.length b) := by
        show extractLoop (b :: (Literal.bytes items ++ quote :: rest)) pos (some o) false dest = _
        rw [extractLoop]
        rw [if_neg (by omega)]
        dsimp only
        rw [if_neg Bool.false_ne_true, if_neg hnotBackslash, if_neg hnotQuote, hpos,
          Nat.add_sub_cancel_left]
      rw [PoItem.bytes, hstep]
      simp only [PoItem.bytes, List.length_singleton] at hroom
      have hlen : (t ++ [b]).length = t.length + 1 := List.length_append
      exact ih o (hstarts.snoc b) (show pos + 1 = o + (t ++ [b]).length by omega) (by omega)
    | escaped b h =>
      simp only [PoItem.bytes, List.length_cons, List.length_nil] at hroom
      have hstep : extractLoop ([backslash, b] ++ Literal.bytes items ++ quote :: rest) pos (some o)
          false dest = extractLoop (b :: (Literal.bytes items ++ quote :: rest)) (pos + 1) (some o)
            true (Function.update dest t.length backslash) := by
        show extractLoop (backslash :: b :: (Literal.bytes items ++ quote :: rest)) pos (some o)
          false dest = _
        rw [extractLoop]
        rw [if_neg (by omega)]
        dsimp only
        rw [if_neg Bool.false_ne_true, if_pos rfl, hpos, Nat.add_sub_cancel_left]
      have hstep' : extractLoop (b :: (Literal.bytes items ++ quote :: rest)) (pos + 1) (some o)
          true (Function.update dest t.length backslash) =
          extractLoop (Literal.bytes items ++ quote :: rest) (pos + 2)
            (some (if b = quote ∨ b = backslash then o + 1 else o)) false
            (Function.update (Function.update dest t.length backslash)
              (pos + 1 - if b = quote ∨ b = backslash then o + 1 else o) b) := by
        rw [extractLoop]
        rw [if_neg (by omega)]
        dsimp only
        rw [if_pos rfl]
      rw [PoItem.bytes, hstep, hstep']
      unfold PoItem.text
      dsimp only
      by_cases hescape : b = quote ∨ b = backslash
      · -- the byte takes the place of the backslash
        rw [if_pos hescape, if_pos hescape, show pos + 1 - (o + 1) = t.length by omega,
          Function.update_idem]
        refine ih _ (hstarts.snoc b) ?_ (by omega)
        rw [List.length_append, List.length_singleton]
        omega
      · rw [if_neg hescape, if_neg hescape,
          show pos + 1 - o = (t ++ [backslash]).length by
            rw [List.length_append, List.length_singleton]; omega]
        have hboth := (hstarts.snoc backslash).snoc b
        rw [List.append_assoc] at hboth
        refine ih _ hboth ?_ (by omega)
        simp only [List.length_append, List.length_cons, List.length_nil]
        omega

theorem text_clean (l : Literal) : 0 ∉ l.text := by
  unfold Literal.text
  rw [List.mem_flatMap]
  rintro ⟨item, _, hmem⟩
  exact item.text_clean hmem

theorem item_text_length (item : PoItem) : item.text.length ≤ item.bytes.length := by
  cases item with
  | plain b h => exact le_refl _
  | escaped b h =>
    unfold PoItem.text
    dsimp only
    split
    · exact Nat.le_succ 1
    · exact le_refl _

theorem text_length (l : Literal) : l.text.length ≤ l.bytes.length := by
  induction l with
  | nil => exact le_refl _
  | cons item l ih =>
    rw [Literal.text, Literal.bytes, List.flatMap_cons, List.flatMap_cons, List.length_append,
      List.length_append]
    exact Nat.add_le_add (item_text_length item) ih

/-- In front of the literal nothing is written. -/
theorem extractLoop_front (front : List Byte) {rest : List Byte} {pos : ℕ} {dest : Mem}
    (hfront : quote ∉ front) (hroom : pos + front.length < bufferSize) :
    extractLoop (front ++ quote :: rest) pos none false dest =
      extractLoop rest (pos + front.length + 1) (some (pos + front.length + 1)) false dest := by
  induction front generalizing pos with
  | nil =>
    rw [List.nil_append, extractLoop]
    rw [if_neg (by simpa using hroom), if_pos rfl]
    rfl
  | cons c front ih =>
    rw [List.length_cons] at hroom
    have hc : c ≠ quote := fun h => hfront (h ▸ List.mem_cons_self)
    have hrest : quote ∉ front := fun h => hfront (List.mem_cons_of_mem _ h)
    rw [List.cons_append, extractLoop]
    rw [if_neg (by omega), if_neg hc, ih hrest (by omega), List.length_cons,
      show pos + 1 + front.length + 1 = pos + (front.length + 1) + 1 by omega]

/-- A line with a literal: its text is in the buffer. -/
theorem extract_literal {keyword : String} (l : Literal) (dest : Mem)
    (hkeyword : quote ∉ ascii keyword) (hroom : (literalLine keyword l).length < bufferSize) :
    ∃ dest', extractString (literalLine keyword l) dest = (dest', some l.text.length) ∧
      CStr dest' l.text := by
  unfold literalLine at hroom ⊢
  simp only [List.length_append, List.length_cons, List.length_nil] at hroom
  set k := (ascii keyword).length with hk
  obtain ⟨dest', o', hloop, hstarts, hnul⟩ := extractLoop_items l [newline] (k + 1)
    (show Starts dest [] from fun i h => absurd h (by simp)) (show k + 1 = k + 1 + 0 from rfl)
    (by omega)
  rw [List.nil_append] at hstarts hnul
  have hstring : CStr dest' l.text :=
    ⟨hstarts, hnul, text_clean l, by have := text_length l; omega⟩
  refine ⟨dest', ?_, hstring⟩
  unfold extractString
  have hwhole : extractLoop (ascii keyword ++ quote :: (l.bytes ++ [quote, newline])) 0 none false
      dest = (dest', some o') := by
    rw [extractLoop_front _ hkeyword (by omega), Nat.zero_add]
    exact hloop
  rw [hwhole]
  dsimp only
  rw [hstring.strlen]
  rfl

/-- A line without a quote. -/
theorem extract_none {src : List Byte} (dest : Mem) (h : quote ∉ src) :
    extractString src dest = (dest, none) := by
  have hloop : ∀ pos, extractLoop src pos none false dest = (dest, none) := by
    induction src with
    | nil =>
      intro pos
      rfl
    | cons c src ih =>
      intro pos
      have hc : c ≠ quote := fun h' => h (h' ▸ List.mem_cons_self)
      rw [extractLoop]
      rw [if_neg hc, ih fun h' => h (List.mem_cons_of_mem _ h')]
      exact ite_self _
  unfold extractString
  rw [hloop 0]
  rfl

/-- A comment, without the end of its line. -/
structure Comment where
  bytes : List Byte
  hash : bytes.head? = some 0x23
  oneLine : newline ∉ bytes

/-- An entry of a PO text: comments, the literals of the key and of the value, and the
blank lines behind it, without the one that separates it from the next. -/
structure PoEntry where
  comments : List Comment
  key : Literal
  keyMore : List Literal
  val : Literal
  valMore : List Literal
  blanks : ℕ

namespace PoEntry

variable (e : PoEntry)

def keyText : List Byte := e.key.text ++ e.keyMore.flatMap Literal.text
def valText : List Byte := e.val.text ++ e.valMore.flatMap Literal.text

def commentLines : List (List Byte) := e.comments.map fun c => c.bytes ++ [newline]
def keyLines : List (List Byte) := literalLine "msgid " e.key :: e.keyMore.map (literalLine "")
def valLines : List (List Byte) := literalLine "msgstr " e.val :: e.valMore.map (literalLine "")

def lines : List (List Byte) := e.commentLines ++ e.keyLines ++ e.valLines

end PoEntry

theorem scanAll_cons {line : List Byte} {s s' : PoState} (h : scan line s = .ok s')
    (rest : List (List Byte)) : scanAll (line :: rest) s = scanAll rest s' := by
  rw [scanAll, h]
  rfl

theorem literalLine_clean {keyword : String} (l : Literal) (h : 0 ∉ ascii keyword) :
    (literalLine keyword l).takeWhile (fun b => b != 0) = literalLine keyword l := by
  have hclean : 0 ∉ literalLine keyword l := by
    have hmark : (0 : Byte) ≠ quote ∧ (0 : Byte) ≠ newline := by decide
    unfold literalLine Literal.bytes
    simp only [List.mem_append, List.mem_cons, List.mem_flatMap, List.not_mem_nil, or_false, not_or,
      not_exists, not_and]
    exact ⟨h, hmark.1, fun item _ => item.bytes_clean.1, hmark.1, hmark.2⟩
  refine List.takeWhile_eq_self_iff.mpr fun b hb => ?_
  have hne : b ≠ 0 := fun h0 => hclean (h0 ▸ hb)
  simpa using hne

theorem startsWith_literal (keyword : String) (l : Literal) :
    (ascii keyword ++ [quote]).isPrefixOf (literalLine keyword l) = true := by
  rw [List.isPrefixOf_iff_prefix]
  refine ⟨l.bytes ++ [quote, newline], ?_⟩
  unfold literalLine
  rw [List.append_assoc]
  rfl

theorem startsWith_msgid (l : Literal) : startsWith (literalLine "msgid " l) "msgid \"" = true :=
  startsWith_literal "msgid " l

theorem startsWith_msgstr (l : Literal) :
    startsWith (literalLine "msgstr " l) "msgstr \"" = true := startsWith_literal "msgstr " l

theorem startsWith_more (l : Literal) : startsWith (literalLine "" l) "msgstr \"" = false := rfl

/-- Between entries the buffers are cleared. -/
structure Ready (s : PoState) : Prop where
  state : s.state = 0
  key : s.key = zeros
  val : s.val = zeros

/-- An entry is being read; nothing has been written for it. -/
structure Reading (s s' : PoState) (state : ℕ) (key val : List Byte) : Prop where
  state : s'.state = state
  key : CStr s'.key key
  val : CStr s'.val val
  offset : s'.offset = s.offset
  array : s'.array = s.array
  out : s'.out = s.out

section

variable {line : List Byte} {s s' : PoState}

theorem scan_line (h : scanLine (line.takeWhile fun b => b != 0) s = .ok s')
    (hstate : s'.state ≠ 4) : scan line s = .ok s' := by
  unfold scan
  rw [h]
  exact if_neg hstate

theorem scan_store (h : scanLine (line.takeWhile fun b => b != 0) s = .ok s')
    (hstate : s'.state = 4) : scan line s = .ok (storeEntry s') := by
  unfold scan
  rw [h]
  exact if_pos hstate

theorem scanLine_idle (hstate : s.state = 0) (h : startsWith line "msgid \"" = false) :
    scanLine line s = .ok s := by
  simp [scanLine, hstate, h]

theorem scanLine_key {key : Mem} {n : ℕ} (hstate : s.state = 0)
    (h : startsWith line "msgid \"" = true) (hextract : extractString line s.key = (key, some n)) :
    scanLine line s = .ok { s with key := key, state := if n = 0 then 1 else 2 } := by
  cases n with
  | zero => simp [scanLine, hstate, h, hextract]
  | succ n => simp [scanLine, hstate, h, hextract]

theorem scanLine_keyMore {tmp key : Mem} {n : ℕ} (hstate : s.state = 1)
    (h : startsWith line "msgstr \"" = false) (hextract : extractString line s.tmp = (tmp, some n))
    (hcat : strcat s.key tmp = some key) :
    scanLine line s = .ok { s with tmp := tmp, key := key } := by
  simp [scanLine, hstate, h, hextract, hcat]

theorem scanLine_val {val : Mem} {n : ℕ} (hstate : s.state = 1 ∨ s.state = 2)
    (h : startsWith line "msgstr \"" = true) (hextract : extractString line s.val = (val, some n)) :
    scanLine line s = .ok { s with val := val, state := 3 } := by
  rcases hstate with hstate | hstate <;> simp [scanLine, hstate, h, hextract]

theorem scanLine_valMore {tmp val : Mem} {n : ℕ} (hstate : s.state = 3)
    (hextract : extractString line s.tmp = (tmp, some n)) (hcat : strcat s.val tmp = some val) :
    scanLine line s = .ok { s with tmp := tmp, val := val } := by
  simp [scanLine, hstate, hextract, hcat]

theorem scanLine_end (hstate : s.state = 3) (h : quote ∉ line) :
    scanLine line s = .ok { s with state := 4 } := by
  simp [scanLine, hstate, extract_none s.tmp h]

end

/-- Lines that do not start an entry are skipped. -/
theorem scanAll_idle {lines : List (List Byte)} {s : PoState} (hstate : s.state = 0)
    (hlines : ∀ line ∈ lines, startsWith (line.takeWhile fun b => b != 0) "msgid \"" = false)
    (rest : List (List Byte)) : scanAll (lines ++ rest) s = scanAll rest s := by
  induction lines with
  | nil => rfl
  | cons line lines ih =>
    have hscan : scan line s = .ok s :=
      scan_line (scanLine_idle hstate (hlines line List.mem_cons_self)) (by omega)
    rw [List.cons_append, scanAll_cons hscan]
    exact ih fun line hline => hlines line (List.mem_cons_of_mem _ hline)

/-- Lines that each add a literal to a string. -/
theorem scanAll_more {Added : List Byte → PoState → Prop}
    (hstep : ∀ (w : List Byte) (s : PoState) (l : Literal), Added w s →
      (literalLine "" l).length < bufferSize → (w ++ l.text).length < bufferSize →
      ∃ s', scan (literalLine "" l) s = .ok s' ∧ Added (w ++ l.text) s')
    (more : List Literal) {w : List Byte} {s : PoState} (h : Added w s)
    (hlines : ∀ l ∈ more, (literalLine "" l).length < bufferSize)
    (hroom : (w ++ more.flatMap Literal.text).length < bufferSize) :
    ∃ s', (∀ rest, scanAll (more.map (literalLine "") ++ rest) s = scanAll rest s') ∧
      Added (w ++ more.flatMap Literal.text) s' := by
  induction more generalizing w s with
  | nil =>
    refine ⟨s, fun rest => rfl, ?_⟩
    rw [List.flatMap_nil, List.append_nil]
    exact h
  | cons l more ih =>
    rw [List.flatMap_cons, ← List.append_assoc] at hroom ⊢
    obtain ⟨s1, hscan, hadded⟩ := hstep w s l h (hlines l List.mem_cons_self) (by
      rw [List.length_append] at hroom
      omega)
    obtain ⟨s', hrest, hadded'⟩ :=
      ih hadded (fun l hl => hlines l (List.mem_cons_of_mem _ hl)) hroom
    exact ⟨s', fun rest => (scanAll_cons hscan _).trans (hrest rest), hadded'⟩

/-- A line of a key that goes on. -/
theorem scan_keyMore {s0 s : PoState} {k v : List Byte} (l : Literal) (h : Reading s0 s 1 k v)
    (hlen : (literalLine "" l).length < bufferSize) (hroom : (k ++ l.text).length < bufferSize) :
    ∃ s', scan (literalLine "" l) s = .ok s' ∧ Reading s0 s' 1 (k ++ l.text) v := by
  obtain ⟨tmp, hextract, htmp⟩ := extract_literal l s.tmp (show quote ∉ ascii "" by decide) hlen
  obtain ⟨key, hcat, hkey⟩ := h.key.strcat htmp hroom
  have hline : scanLine ((literalLine "" l).takeWhile fun b => b != 0) s =
      .ok { s with tmp := tmp, key := key } := by
    rw [literalLine_clean l (by decide)]
    exact scanLine_keyMore h.state (startsWith_more l) hextract hcat
  refine ⟨_, scan_line hline ?_, h.state, hkey, h.val, h.offset, h.array, h.out⟩
  show s.state ≠ 4
  rw [h.state]
  decide

/-- A line of a value that goes on. -/
theorem scan_valMore {s0 s : PoState} {k v : List Byte} (l : Literal) (h : Reading s0 s 3 k v)
    (hlen : (literalLine "" l).length < bufferSize) (hroom : (v ++ l.text).length < bufferSize) :
    ∃ s', scan (literalLine "" l) s = .ok s' ∧ Reading s0 s' 3 k (v ++ l.text) := by
  obtain ⟨tmp, hextract, htmp⟩ := extract_literal l s.tmp (show quote ∉ ascii "" by decide) hlen
  obtain ⟨val, hcat, hval⟩ := h.val.strcat htmp hroom
  have hline : scanLine ((literalLine "" l).takeWhile fun b => b != 0) s =
      .ok { s with tmp := tmp, val := val } := by
    rw [literalLine_clean l (by decide)]
    exact scanLine_valMore h.state hextract hcat
  refine ⟨_, scan_line hline ?_, h.state, h.key, hval, h.offset, h.array, h.out⟩
  show s.state ≠ 4
  rw [h.state]
  decide

/-- The line with the keyword of the key; the key goes on only if it is empty. -/
theorem scan_key {s : PoState} {l : Literal} (h : Ready s)
    (hline : (literalLine "msgid " l).length < bufferSize) :
    ∃ s', scan (literalLine "msgid " l) s = .ok s' ∧
      Reading s s' (if l.text.length = 0 then 1 else 2) l.text [] := by
  obtain ⟨key, hextract, hkey⟩ := extract_literal l s.key (show quote ∉ ascii "msgid " by decide)
    hline
  have hscan : scanLine ((literalLine "msgid " l).takeWhile fun b => b != 0) s =
      .ok { s with key := key, state := if l.text.length = 0 then 1 else 2 } := by
    rw [literalLine_clean l (by decide)]
    exact scanLine_key h.state (startsWith_msgid l) hextract
  refine ⟨_, scan_line hscan ?_, rfl, hkey, ?_, rfl, rfl, rfl⟩
  · dsimp only
    split <;> decide
  · show CStr s.val []
    rw [h.val]
    exact CStr.zeros

/-- The line with the keyword of the value. -/
theorem scan_val {s0 s : PoState} {state : ℕ} {k : List Byte} {l : Literal}
    (h : Reading s0 s state k []) (hstate : state = 1 ∨ state = 2)
    (hline : (literalLine "msgstr " l).length < bufferSize) :
    ∃ s', scan (literalLine "msgstr " l) s = .ok s' ∧ Reading s0 s' 3 k l.text := by
  obtain ⟨val, hextract, hval⟩ := extract_literal l s.val (show quote ∉ ascii "msgstr " by decide)
    hline
  have hscan : scanLine ((literalLine "msgstr " l).takeWhile fun b => b != 0) s =
      .ok { s with val := val, state := 3 } := by
    rw [literalLine_clean l (by decide)]
    exact scanLine_val (h.state ▸ hstate) (startsWith_msgstr l) hextract
  exact ⟨_, scan_line hscan (show (3 : ℕ) ≠ 4 by decide), rfl, h.key, hval, h.offset, h.array,
    h.out⟩

/-- The lines of an entry fit into the line buffer, its strings into theirs, and a key
that goes on starts with an empty literal. -/
structure EntryFits (e : PoEntry) : Prop where
  lines : ∀ line ∈ e.lines, line.length < bufferSize
  first : e.keyMore ≠ [] → e.key = []
  key : e.keyText.length < bufferSize
  val : e.valText.length < bufferSize

theorem comment_idle (c : Comment) :
    startsWith ((c.bytes ++ [newline]).takeWhile fun b => b != 0) "msgid \"" = false := by
  obtain ⟨bytes, hhash, _⟩ := c
  cases bytes with
  | nil => exact absurd hhash (by simp)
  | cons b bytes =>
    obtain rfl := Option.some.inj hhash
    rfl

/-- The lines of a key. -/
theorem scanAll_key {e : PoEntry} (hfits : EntryFits e) {s : PoState} (h : Ready s) :
    ∃ s' state, (∀ rest, scanAll (e.keyLines ++ rest) s = scanAll rest s') ∧
      (state = 1 ∨ state = 2) ∧ Reading s s' state e.keyText [] := by
  have hline : ∀ line ∈ e.keyLines, line.length < bufferSize := fun line hline =>
    hfits.lines line (List.mem_append_left _ (List.mem_append_right _ hline))
  obtain ⟨s1, hscan, hreading⟩ := scan_key h (hline _ List.mem_cons_self)
  by_cases hmore : e.keyMore = []
  · refine ⟨s1, if e.key.text.length = 0 then 1 else 2, fun rest => ?_, ?_, ?_⟩
    · unfold PoEntry.keyLines
      rw [hmore]
      exact scanAll_cons hscan rest
    · split
      · exact Or.inl rfl
      · exact Or.inr rfl
    · unfold PoEntry.keyText
      rw [hmore, List.flatMap_nil, List.append_nil]
      exact hreading
  · have hempty : e.key.text = [] := by
      rw [hfits.first hmore]
      rfl
    rw [hempty] at hreading
    obtain ⟨s2, hrest, hreading'⟩ := scanAll_more (fun _ _ l => scan_keyMore l) e.keyMore hreading
      (fun l hl => hline _ (List.mem_cons_of_mem _ (List.mem_map_of_mem hl)))
      (by
        have hkey := hfits.key
        unfold PoEntry.keyText at hkey
        rwa [hempty] at hkey)
    refine ⟨s2, 1, fun rest => ?_, Or.inl rfl, ?_⟩
    · exact (scanAll_cons hscan _).trans (hrest rest)
    · unfold PoEntry.keyText
      rw [hempty]
      exact hreading'

/-- The lines of an entry, up to the blank line or the end. -/
theorem scanAll_entry {e : PoEntry} (hfits : EntryFits e) {s : PoState} (h : Ready s) :
    ∃ s', (∀ rest, scanAll (e.lines ++ rest) s = scanAll rest s') ∧
      Reading s s' 3 e.keyText e.valText := by
  have hline : ∀ line ∈ e.valLines, line.length < bufferSize := fun line hline =>
    hfits.lines line (List.mem_append_right _ hline)
  obtain ⟨s1, state, hkey, hstate, hreading⟩ := scanAll_key hfits h
  obtain ⟨s2, hscan, hreading'⟩ := scan_val hreading hstate (hline _ List.mem_cons_self)
  obtain ⟨s3, hval, hreading''⟩ := scanAll_more (fun _ _ l => scan_valMore l) e.valMore hreading'
    (fun l hl => hline _ (List.mem_cons_of_mem _ (List.mem_map_of_mem hl))) hfits.val
  refine ⟨s3, fun rest => ?_, hreading''⟩
  unfold PoEntry.lines
  rw [List.append_assoc, List.append_assoc, scanAll_idle h.state, hkey]
  · exact (scanAll_cons hscan _).trans (hval rest)
  · intro line hline
    obtain ⟨c, _, rfl⟩ := List.mem_map.mp hline
    exact comment_idle c

/-- An entry whose hashes are equal is left out. -/
def PoEntry.Skipped (e : PoEntry) : Prop := sfhHash e.keyText = sfhHash e.valText

instance (e : PoEntry) : Decidable e.Skipped := inferInstanceAs (Decidable (_ = _))

def stored (entries : List PoEntry) : List PoEntry := entries.filter fun e => !decide e.Skipped

theorem stored_snoc (entries : List PoEntry) (e : PoEntry) :
    stored (entries ++ [e]) = stored entries ++ if e.Skipped then [] else [e] := by
  unfold stored
  rw [List.filter_append]
  by_cases hskip : e.Skipped <;> simp [hskip]

/-- What the state holds for an entry that was written. -/
structure EntryAt (s : PoState) (e : PoEntry) (a : LmoEntry) : Prop where
  keyId : a.keyId = sfhHash e.keyText
  length : a.length = UInt32.ofNat e.valText.length
  value : ∃ o, a.offset = UInt32.ofNat o ∧ o + e.valText.length ≤ s.out.length ∧
    (s.out.drop o).take e.valText.length = e.valText

/-- The values and the index hold the entries that are not left out. -/
structure Written (entries : List PoEntry) (s : PoState) : Prop where
  ready : Ready s
  offset : s.offset = s.out.length
  index : List.Forall₂ (EntryAt s) (stored entries) s.array
  size : s.out.length = ((stored entries).map fun e => padded e.valText.length).sum

theorem EntryAt.append {s s' : PoState} {e : PoEntry} {a : LmoEntry} (h : EntryAt s e a)
    {more : List Byte} (hout : s'.out = s.out ++ more) : EntryAt s' e a := by
  obtain ⟨o, ho, hle, hvalue⟩ := h.value
  refine ⟨h.keyId, h.length, o, ho, ?_, ?_⟩
  · rw [hout, List.length_append]
    omega
  · rw [hout, List.drop_append_of_le_length (by omega), List.take_append_of_le_length]
    · exact hvalue
    · rw [List.length_drop]
      omega

theorem le_padded (n : ℕ) : n ≤ padded n := Nat.le_add_right _ _

/-- Storing an entry that was read. -/
theorem storeEntry_written {entries : List PoEntry} {e : PoEntry} {s s' : PoState} {state : ℕ}
    (h : Written entries s) (hread : Reading s s' state e.keyText e.valText)
    (hkey : e.keyText ≠ []) (hval : e.valText ≠ []) :
    Written (entries ++ [e]) (storeEntry s') := by
  have hpos : 0 < e.keyText.length ∧ 0 < e.valText.length :=
    ⟨List.length_pos_iff.mpr hkey, List.length_pos_iff.mpr hval⟩
  unfold storeEntry
  dsimp only
  rw [hread.key.strlen, hread.val.strlen, hread.key.cstr, hread.val.cstr]
  by_cases hskip : e.Skipped
  · rw [if_neg fun hstore => hstore.2.2 hskip]
    have hstored : stored (entries ++ [e]) = stored entries := by
      rw [stored_snoc, if_pos hskip, List.append_nil]
    refine ⟨⟨rfl, rfl, rfl⟩, ?_, ?_, ?_⟩
    · exact hread.offset.trans (h.offset.trans (congrArg List.length hread.out).symm)
    · rw [hstored]
      show List.Forall₂ _ _ s'.array
      rw [hread.array]
      exact h.index.imp fun e a hat =>
        hat.append (show s'.out = s.out ++ [] by rw [hread.out, List.append_nil])
    · rw [hstored]
      exact (congrArg List.length hread.out).trans h.size
  · rw [if_pos ⟨hpos.1, hpos.2, hskip⟩]
    have hstored : stored (entries ++ [e]) = stored entries ++ [e] := by
      rw [stored_snoc, if_neg hskip]
    set v := e.valText with hv
    set more := slice s'.val 0 (padded v.length) with hmore
    have hlen : more.length = padded v.length := by rw [hmore, slice_length, Nat.sub_zero]
    have hvalue : more.take v.length = v := by
      rw [hmore, slice_append s'.val (Nat.zero_le v.length) (le_padded v.length),
        hread.val.starts.slice, List.take_left]
    have hsize := le_padded v.length
    refine ⟨⟨rfl, rfl, rfl⟩, ?_, ?_, ?_⟩
    · show s'.offset + padded v.length = (s'.out ++ more).length
      rw [List.length_append, hlen, hread.offset, hread.out, h.offset]
    · rw [hstored]
      show List.Forall₂ _ _ (s'.array ++ _)
      rw [hread.array]
      refine List.rel_append (h.index.imp fun e a hat =>
        hat.append (show s'.out ++ more = s.out ++ more by rw [hread.out])) ?_
      refine List.Forall₂.cons ⟨rfl, rfl, s.out.length, ?_, ?_, ?_⟩ List.Forall₂.nil
      · rw [hread.offset, h.offset]
      · show s.out.length + v.length ≤ (s'.out ++ more).length
        rw [List.length_append, hlen, hread.out]
        omega
      · show ((s'.out ++ more).drop _).take _ = _
        rw [hread.out, List.drop_left]
        exact hvalue
    · rw [hstored, List.map_append, List.sum_append]
      show (s'.out ++ more).length = _
      rw [List.length_append, hlen, hread.out, h.size]
      simp [hv]

/-- The lines of a text; entries are separated by a blank line at least. -/
def poLines : List PoEntry → List (List Byte)
  | [] => []
  | [e] => e.lines ++ List.replicate e.blanks [newline]
  | e :: es => e.lines ++ List.replicate (e.blanks + 1) [newline] ++ poLines es

/-- A PO text with strings that are not empty and fit into 4096 bytes, and keys with
different hashes. -/
structure PoText where
  leading : ℕ
  entries : List PoEntry
  key : ∀ e ∈ entries, e.keyText ≠ [] ∧ e.keyText.length < bufferSize
  val : ∀ e ∈ entries, e.valText ≠ [] ∧ e.valText.length < bufferSize
  distinct : entries.Pairwise fun a b => sfhHash a.keyText ≠ sfhHash b.keyText

namespace PoText

variable (po : PoText)

def lines : List (List Byte) := List.replicate po.leading [newline] ++ poLines po.entries

def bytes : List Byte := po.lines.flatten

/-- Every line fits into the line buffer, a key that goes on starts with an empty
literal, and the file is no larger than an int can count. -/
structure Fits : Prop where
  lines : ∀ line ∈ po.lines, line.length < bufferSize
  first : ∀ e ∈ po.entries, e.keyMore ≠ [] → e.key = []
  size : ((stored po.entries).map fun e => padded e.valText.length).sum +
    16 * (stored po.entries).length + 4 < 2 ^ 31

end PoText

/-- A line that ends and fits is read in one piece. -/
theorem fgetsLines_line {line : List Byte} (front rest : List Byte) {room : ℕ}
    (hline : newline ∉ line) (hroom : line.length < room) :
    fgetsLines front room (line ++ newline :: rest) =
      (front ++ line ++ [newline]) :: fgetsLines [] (bufferSize - 1) rest := by
  induction line generalizing front room with
  | nil =>
    rw [List.nil_append, fgetsLines, if_pos (Or.inl rfl), List.append_nil]
  | cons c line ih =>
    rw [List.length_cons] at hroom
    have hc : c ≠ newline := fun h => hline (h ▸ List.mem_cons_self)
    rw [List.cons_append, fgetsLines, if_neg (by
      rintro (h | h)
      · exact hc h
      · omega), ih (front ++ [c]) (fun h => hline (List.mem_cons_of_mem _ h)) (by omega)]
    simp

/-- Lines that end and fit are the lines that are read. -/
theorem fgetsLines_flatten {lines : List (List Byte)}
    (hlines : ∀ line ∈ lines,
      line.length < bufferSize ∧ ∃ l, line = l ++ [newline] ∧ newline ∉ l) :
    fgetsLines [] (bufferSize - 1) lines.flatten = lines := by
  induction lines with
  | nil => rfl
  | cons line lines ih =>
    obtain ⟨hlen, l, rfl, hl⟩ := hlines line List.mem_cons_self
    rw [List.length_append, List.length_singleton] at hlen
    rw [List.flatten_cons, List.append_assoc, List.singleton_append,
      fgetsLines_line [] _ hl (by omega),
      ih fun line hline => hlines line (List.mem_cons_of_mem _ hline)]
    rfl

/-- A line that ends where it should. -/
def OneLine (line : List Byte) : Prop := ∃ l, line = l ++ [newline] ∧ newline ∉ l

theorem literalLine_oneLine {keyword : String} (l : Literal) (h : newline ∉ ascii keyword) :
    OneLine (literalLine keyword l) := by
  have hquote : newline ≠ quote := by decide
  refine ⟨ascii keyword ++ quote :: (l.bytes ++ [quote]), ?_, ?_⟩
  · simp [literalLine]
  · unfold Literal.bytes
    simp only [List.mem_append, List.mem_cons, List.mem_flatMap, List.not_mem_nil, or_false, not_or,
      not_exists, not_and]
    exact ⟨h, hquote, fun item _ => item.bytes_clean.2, hquote⟩

theorem blank_oneLine {n : ℕ} {line : List Byte} (h : line ∈ List.replicate n [newline]) :
    OneLine line := by
  rw [List.eq_of_mem_replicate h]
  exact ⟨[], rfl, by simp⟩

theorem entry_oneLine {e : PoEntry} {line : List Byte} (h : line ∈ e.lines) : OneLine line := by
  unfold PoEntry.lines at h
  rw [List.mem_append, List.mem_append] at h
  rcases h with (h | h) | h
  · obtain ⟨c, _, rfl⟩ := List.mem_map.mp h
    exact ⟨c.bytes, rfl, c.oneLine⟩
  · rcases List.mem_cons.mp h with rfl | h
    · exact literalLine_oneLine _ (by decide)
    · obtain ⟨l, _, rfl⟩ := List.mem_map.mp h
      exact literalLine_oneLine _ (by decide)
  · rcases List.mem_cons.mp h with rfl | h
    · exact literalLine_oneLine _ (by decide)
    · obtain ⟨l, _, rfl⟩ := List.mem_map.mp h
      exact literalLine_oneLine _ (by decide)

/-- A line of the text is a blank line or a line of an entry. -/
theorem mem_poLines {entries : List PoEntry} {line : List Byte} (h : line ∈ poLines entries) :
    line = [newline] ∨ ∃ e ∈ entries, line ∈ e.lines := by
  induction entries with
  | nil => exact absurd h (by simp [poLines])
  | cons e es ih =>
    cases es with
    | nil =>
      rcases List.mem_append.mp h with h | h
      · exact Or.inr ⟨e, List.mem_cons_self, h⟩
      · exact Or.inl (List.eq_of_mem_replicate h)
    | cons e' es =>
      rcases List.mem_append.mp h with h | h
      · rcases List.mem_append.mp h with h | h
        · exact Or.inr ⟨e, List.mem_cons_self, h⟩
        · exact Or.inl (List.eq_of_mem_replicate h)
      · rcases ih h with h | ⟨e'', he, h⟩
        · exact Or.inl h
        · exact Or.inr ⟨e'', List.mem_cons_of_mem _ he, h⟩

theorem mem_poLines_of_entry {entries : List PoEntry} {e : PoEntry} (he : e ∈ entries)
    {line : List Byte} (h : line ∈ e.lines) : line ∈ poLines entries := by
  induction entries with
  | nil => exact absurd he (by simp)
  | cons e' es ih =>
    cases es with
    | nil =>
      obtain rfl := List.mem_singleton.mp he
      exact List.mem_append_left _ h
    | cons e'' es =>
      rcases List.mem_cons.mp he with rfl | he
      · exact List.mem_append_left _ (List.mem_append_left _ h)
      · exact List.mem_append_right _ (ih he)

theorem fgetsLines_po (po : PoText) (h : po.Fits) :
    fgetsLines [] (bufferSize - 1) po.bytes = po.lines := by
  refine fgetsLines_flatten fun line hline => ⟨h.lines line hline, ?_⟩
  rcases List.mem_append.mp hline with hline | hline
  · exact blank_oneLine hline
  · rcases mem_poLines hline with rfl | ⟨e, _, hline⟩
    · exact ⟨[], rfl, by simp⟩
    · exact entry_oneLine hline

theorem scanAll_blanks {s : PoState} (hstate : s.state = 0) (n : ℕ) (rest : List (List Byte)) :
    scanAll (List.replicate n [newline] ++ rest) s = scanAll rest s :=
  scanAll_idle hstate (fun line hline => by
    rw [List.eq_of_mem_replicate hline]
    decide) rest

/-- A blank line, or the end, stores an entry that was read. -/
theorem scan_blank {s0 s : PoState} {k v line : List Byte} (h : Reading s0 s 3 k v)
    (hline : quote ∉ line) (hclean : 0 ∉ line) :
    ∃ s', scan line s = .ok (storeEntry s') ∧ Reading s0 s' 4 k v := by
  have hcut : line.takeWhile (fun b => b != 0) = line := by
    refine List.takeWhile_eq_self_iff.mpr fun b hb => ?_
    have hne : b ≠ 0 := fun h0 => hclean (h0 ▸ hb)
    simpa using hne
  have hend := scanLine_end h.state hline
  rw [← hcut] at hend
  exact ⟨_, scan_store hend rfl, rfl, h.key, h.val, h.offset, h.array, h.out⟩

/-- The entries of a text are written one after the other. -/
theorem scanAll_entries (entries : List PoEntry) {done : List PoEntry} {s : PoState}
    (h : Written done s) (hfits : ∀ e ∈ entries, EntryFits e)
    (hne : ∀ e ∈ entries, e.keyText ≠ [] ∧ e.valText ≠ []) :
    ∃ s', scanAll (poLines entries) s = .ok s' ∧ Written (done ++ entries) s' := by
  induction entries generalizing done s with
  | nil =>
    refine ⟨s, ?_, by rwa [List.append_nil]⟩
    show (if 2 ≤ s.state then scan [] s else .ok s) = .ok s
    rw [if_neg (by rw [h.ready.state]; omega)]
  | cons e es ih =>
    obtain ⟨hkey, hval⟩ := hne e List.mem_cons_self
    obtain ⟨s1, hlines, hreading⟩ := scanAll_entry (hfits e List.mem_cons_self) h.ready
    -- after the lines of the entry: a blank line or the end of the input stores it
    obtain ⟨s2, hblank, hreading'⟩ := scan_blank hreading
      (show quote ∉ [newline] by decide) (by decide)
    have hwritten := storeEntry_written h hreading' hkey hval
    cases es with
    | nil =>
      cases hblanks : e.blanks with
      | zero =>
        obtain ⟨s3, hend, hreading''⟩ := scan_blank hreading (show quote ∉ [] by simp) (by simp)
        refine ⟨storeEntry s3, ?_, storeEntry_written h hreading'' hkey hval⟩
        rw [poLines, hblanks, List.replicate_zero, hlines, scanAll, if_pos, hend]
        rw [hreading.state]
        omega
      | succ n =>
        refine ⟨storeEntry s2, ?_, hwritten⟩
        have hstop : scanAll [] (storeEntry s2) = .ok (storeEntry s2) := by
          rw [scanAll, if_neg]
          rw [hwritten.ready.state]
          omega
        rw [poLines, hblanks, hlines, List.replicate_succ, scanAll_cons hblank,
          ← List.append_nil (List.replicate n [newline]), scanAll_blanks hwritten.ready.state, hstop]
    | cons e' es =>
      obtain ⟨s3, hrest, hwritten'⟩ := ih hwritten
        (fun e he => hfits e (List.mem_cons_of_mem _ he))
        (fun e he => hne e (List.mem_cons_of_mem _ he))
      rw [List.append_assoc, List.singleton_append] at hwritten'
      refine ⟨s3, ?_, hwritten'⟩
      rw [poLines, List.append_assoc, hlines, List.replicate_succ, List.cons_append,
        scanAll_cons hblank, scanAll_blanks hwritten.ready.state, hrest]
      simp

/-- The state at the end of a text. -/
theorem scanAll_po (po : PoText) (h : po.Fits) (stack : Mem) :
    ∃ s, scanAll (fgetsLines [] (bufferSize - 1) po.bytes) ⟨zeros, zeros, stack, 0, 0, [], []⟩ =
      .ok s ∧ Written po.entries s := by
  have hstart : Written [] ⟨zeros, zeros, stack, 0, 0, [], []⟩ :=
    ⟨⟨rfl, rfl, rfl⟩, rfl, List.Forall₂.nil, rfl⟩
  rw [fgetsLines_po po h]
  unfold PoText.lines
  rw [scanAll_blanks rfl]
  refine scanAll_entries po.entries hstart (fun e he => ⟨fun line hline => ?_, h.first e he,
    (po.key e he).2, (po.val e he).2⟩) fun e he => ⟨(po.key e he).1, (po.val e he).1⟩
  exact h.lines line (List.mem_append_right _ (mem_poLines_of_entry he hline))

end Iot7688.Po2lmo
