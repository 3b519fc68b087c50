import Iot7688.Lib.Scan

/-!
The template parser of LuCI: template_reader cuts a template into text and tags and
hands Lua one string for each chunk, one call late. Pointers are offsets into the
template; what lies behind it can be read but is not known. Buffers are large
enough, and a 32-bit pointer plus a negative length wraps. Behind the end of an unclosed tag,
and of a last text that is all space, the parser looks at bytes that are not its own.
-/
namespace Iot7688.Template

open Lib

/-- The bytes of a template, from a file or a string, and the memory behind them. -/
structure Source where
  data : List Byte
  past : ℕ → Byte
  small : data.length < 2 ^ 31

namespace Source

variable (t : Source)

def size : ℕ := t.data.length

def mem : Mem := fun i => t.data.getD i (t.past (i - t.data.length))

end Source

def ascii (s : String) : List Byte := s.toList.map fun c => c.toNat.toUInt8

inductive ChunkType
  | init
  | text
  | comment
  | expr
  | include
  | i18n
  | i18nRaw
  | code
  | eof
deriving DecidableEq

structure Chunk where
  s : ℕ
  e : ℕ
  type : ChunkType
  line : ℕ

structure Parser where
  off : ℕ
  line : ℕ
  inExpr : Bool
  stripBefore : Bool
  stripAfter : Bool
  prvChunk : Chunk
  curChunk : Chunk

/-- The state after template_open and template_string. -/
def templateOpen : Parser where
  off := 0
  line := 0
  inExpr := false
  stripBefore := false
  stripAfter := false
  prvChunk := ⟨0, 0, .init, 0⟩
  curChunk := ⟨0, 0, .init, 0⟩

def genCode : ChunkType → List Byte × List Byte
  | .init => ([], [])
  | .text => (ascii "write(\"", ascii "\")")
  | .comment => ([], [])
  | .expr => (ascii "write(tostring(", ascii " or \"\"))")
  | .include => (ascii "include(\"", ascii "\")")
  | .i18n => (ascii "write(\"", ascii "\")")
  | .i18nRaw => (ascii "write(\"", ascii "\")")
  | .code => ([], ascii " ")
  | .eof => ([], [])

def isSpace (b : Byte) : Bool := b == 0x20 || (9 ≤ b && b ≤ 13)
def isBlank (b : Byte) : Bool := b == 0x20 || b == 9
def dash : Byte := 0x2d
def percent : Byte := 0x25
def openTag : List Byte := [0x3c, percent]
def closeTag : List Byte := [percent, 0x3e]

/-- strfind: the offset of the first match in hslen bytes at off. -/
def strfind (m : Mem) (off hslen : ℕ) (needle : List Byte) : Option ℕ :=
  (List.range hslen).find? fun i =>
    decide (i + needle.length ≤ hslen) && slice m (off + i) (off + i + needle.length) == needle

def templateText (t : Source) (p : Parser) (e : ℕ) : Parser :=
  if p.off < t.size then
    let s := if p.stripAfter then skip isSpace t.mem (e + 1 - p.off) p.off else p.off
    { p with curChunk := ⟨s, e, .text, p.line⟩ }
  else { p with curChunk := ⟨p.off, e, .eof, p.line⟩ }

/-- The type that the first byte of a tag stands for. -/
def tagType (b : Byte) : Option ChunkType :=
  if b = 0x23 then some .comment
  else if b = 0x2b then some .include
  else if b = 0x3a then some .i18n
  else if b = 0x5f then some .i18nRaw
  else if b = 0x3d then some .expr
  else none

def templateCode (t : Source) (p : Parser) (e : ℕ) : Parser :=
  let before := t.mem p.off == dash
  let s := if before then skip isBlank t.mem (e - p.off) (p.off + 1) else p.off
  let after := t.mem (e - 1) == dash
  let e := if after then back isBlank t.mem (e - s) e - 1 else e
  let chunk : Chunk :=
    match tagType (t.mem s) with
    | some type => ⟨s + 1, e, type, p.line⟩
    | none => ⟨s, e, .code, p.line⟩
  { p with stripBefore := before, stripAfter := after, curChunk := chunk }

/-- What a call of the reader returns; no return where a negative length is given to
memcpy or to the catalog. -/
inductive Piece
  | eof
  | str (bytes : List Byte)
  | fault
deriving DecidableEq

def escapeByte (escapeXml : Bool) (b : Byte) : List Byte :=
  if b = 0x5c then [0x5c, 0x5c]
  else if b = 0x22 then (if escapeXml then ascii "&#34;" else [0x5c, 0x22])
  else if b = 0x0a then [0x5c, 0x6e]
  else if escapeXml && (b == 0x27 || b == 0x26 || b == 0x3c || b == 0x3e) then
    ascii "&#" ++ ascii (toString b.toNat) ++ ascii ";"
  else [b]

def luastrEscape (escapeXml : Bool) (s : List Byte) : List Byte := s.flatMap (escapeByte escapeXml)

section

-- lmo_translate, with the catalogs that are loaded
variable (translate : List Byte → Option (List Byte))

def luastrTranslate (escapeXml : Bool) (s : List Byte) : List Byte :=
  luastrEscape escapeXml ((translate s).getD s)

/-- The contents of the buffer for a chunk with the given bytes. -/
def chunkBody (type : ChunkType) (bytes : List Byte) : List Byte :=
  match type with
  | .text => luastrEscape false bytes
  | .expr => bytes
  | .include => luastrEscape false bytes
  | .i18n => luastrTranslate translate true bytes
  | .i18nRaw => luastrTranslate translate false bytes
  | .code => bytes
  | _ => []

/-- The string for a chunk that is not empty. -/
def chunkString (type : ChunkType) (bytes : List Byte) : List Byte :=
  let s := (genCode type).1 ++ chunkBody translate type bytes ++ (genCode type).2
  if s = [] then ascii " " else s

def ChunkType.usesLength : ChunkType → Bool
  | .expr => true
  | .code => true
  | .i18n => true
  | .i18nRaw => true
  | _ => false

/-- The chunk that template_format_chunk formats: trailing space is cut off. -/
def trimChunk (t : Source) (p : Parser) : Chunk :=
  let c := p.prvChunk
  if p.stripBefore && c.type = .text then { c with e := back isSpace t.mem (c.e - c.s) c.e } else c

def templateFormatChunk (t : Source) (p : Parser) : Piece × Parser :=
  let c := trimChunk t p
  let p := { p with prvChunk := c }
  if c.s = c.e then (if c.type = .eof then .eof else .str (ascii " "), p)
  else if c.e < c.s && c.type.usesLength then (.fault, p)
  else
    let bytes := slice t.mem c.s c.e
    let lines := if c.type = .expr ∨ c.type = .code then bytes.count 0x0a else 0
    (.str (chunkString translate c.type bytes), { p with line := p.line + lines })

def templateReader (t : Source) (p : Parser) : Piece × Parser :=
  let rem := t.size - p.off
  let p := { p with prvChunk := p.curChunk }
  if p.inExpr then
    match strfind t.mem p.off rem closeTag with
    | some i =>
        let q := templateCode t p (p.off + i)
        templateFormatChunk translate t { q with off := p.off + i + 2, inExpr := false }
    | none => (.str [27], templateCode t p t.size)
  else
    match strfind t.mem p.off rem openTag with
    | some i =>
        let q := templateText t p (p.off + i)
        templateFormatChunk translate t { q with off := p.off + i + 2, inExpr := true }
    | none =>
        let q := templateText t p t.size
        templateFormatChunk translate t { q with off := t.size }

/-- The parser after n calls. -/
def afterCalls (t : Source) : ℕ → Parser
  | 0 => templateOpen
  | n + 1 => (templateReader translate t (afterCalls t n)).2

/-- The strings of the calls up to the end, if it is reached within n calls. -/
def readAll (t : Source) : ℕ → Parser → Option (List (List Byte))
  | 0, _ => none
  | n + 1, p =>
      match templateReader translate t p with
      | (.eof, _) => some []
      | (.str s, q) => (readAll t n q).map fun ss => s :: ss
      | (.fault, _) => none

end

/-- The pointers of a chunk are in order and inside the template. -/
def Safe (t : Source) (c : Chunk) : Prop := c.s ≤ c.e ∧ c.e ≤ t.size

/-- What is left of an unclosed tag is no single dash, and the byte behind the
template, where it is looked at, is of no meaning. -/
def RestOk (t : Source) (off : ℕ) : Prop :=
  (off = t.size → t.mem t.size ≠ dash ∧ tagType (t.mem t.size) = none) ∧
  ¬(off + 1 = t.size ∧ t.mem off = dash) ∧
  (off + 1 < t.size → t.mem off = dash → (∀ i, off < i → i < t.size → isBlank (t.mem i) = true) →
    isBlank (t.mem t.size) = false ∧ tagType (t.mem t.size) = none)

/-- The condition on a call of template_reader. -/
def StepOk (t : Source) (p : Parser) : Prop :=
  if p.inExpr then
    match strfind t.mem p.off (t.size - p.off) closeTag with
    | some i => ¬(i = 1 ∧ t.mem p.off = dash)
    | none => RestOk t p.off
  else
    strfind t.mem p.off (t.size - p.off) openTag = none → p.off < t.size → p.stripAfter = true →
      ¬∀ i, p.off ≤ i → i ≤ t.size → isSpace (t.mem i) = true

theorem dash_not_blank : isBlank dash = false := by decide

theorem tagType_dash : tagType dash = none := by decide

theorem strfind_some {m : Mem} {off n i : ℕ} {needle : List Byte}
    (h : strfind m off n needle = some i) :
    i + needle.length ≤ n ∧ slice m (off + i) (off + i + needle.length) = needle := by
  have hfound := List.find?_some h
  simpa using hfound

theorem strfind_closeTag {m : Mem} {off n i : ℕ} (h : strfind m off n closeTag = some i) :
    i + 2 ≤ n ∧ m (off + i) = percent := by
  obtain ⟨hle, hslice⟩ := strfind_some h
  have hlen : closeTag.length = 2 := rfl
  rw [hlen] at hle hslice
  rw [slice_cons m (show off + i < off + i + 2 by omega)] at hslice
  exact ⟨hle, (List.cons.inj hslice).1⟩

theorem strfind_openTag {m : Mem} {off n i : ℕ} (h : strfind m off n openTag = some i) :
    i + 2 ≤ n ∧ m (off + i) = 0x3c ∧ m (off + i + 1) = percent := by
  obtain ⟨hle, hslice⟩ := strfind_some h
  have hlen : openTag.length = 2 := rfl
  rw [hlen] at hle hslice
  rw [slice_cons m (show off + i < off + i + 2 by omega),
    slice_cons m (show off + i + 1 < off + i + 2 by omega)] at hslice
  obtain ⟨hfirst, hrest⟩ := List.cons.inj hslice
  exact ⟨hle, hfirst, (List.cons.inj hrest).1⟩

/-- Where the code of a tag starts, before its type. -/
def codeStart (t : Source) (off e : ℕ) : ℕ :=
  if t.mem off = dash then skip isBlank t.mem (e - off) (off + 1) else off

/-- Where it ends: the blanks in front of a closing dash stay. -/
def codeEnd (t : Source) (e : ℕ) : ℕ := if t.mem (e - 1) = dash then e - 1 else e

theorem back_of_dash {m : Mem} (n : ℕ) {e : ℕ} (h : m (e - 1) = dash) : back isBlank m n e = e := by
  cases n with
  | zero => rfl
  | succ n =>
    unfold back
    rw [h, dash_not_blank]
    rfl

theorem templateCode_chunk (t : Source) (p : Parser) (e : ℕ) :
    (templateCode t p e).curChunk =
      match tagType (t.mem (codeStart t p.off e)) with
      | some type => ⟨codeStart t p.off e + 1, codeEnd t e, type, p.line⟩
      | none => ⟨codeStart t p.off e, codeEnd t e, .code, p.line⟩ := by
  have hs : (if t.mem p.off == dash then skip isBlank t.mem (e - p.off) (p.off + 1) else p.off) =
      codeStart t p.off e := by
    unfold codeStart
    by_cases h : t.mem p.off = dash
    · simp [h]
    · simp [h]
  have he : (if t.mem (e - 1) == dash then
      back isBlank t.mem (e - codeStart t p.off e) e - 1 else e) = codeEnd t e := by
    unfold codeEnd
    by_cases h : t.mem (e - 1) = dash
    · simp [h, back_of_dash _ h]
    · simp [h]
  unfold templateCode
  dsimp only
  cases htype : tagType (t.mem (codeStart t p.off e)) with
  | none => simp only [hs, he, htype]
  | some type => simp only [hs, he, htype]

/-- The start of the code of a tag, in front of its type character. -/
theorem templateCode_safe (t : Source) (p : Parser) (e : ℕ) :
    Safe t (templateCode t p e).curChunk ↔
      codeStart t p.off e + (if (tagType (t.mem (codeStart t p.off e))).isSome then 1 else 0) ≤
        codeEnd t e ∧ codeEnd t e ≤ t.size := by
  rw [templateCode_chunk]
  cases tagType (t.mem (codeStart t p.off e)) with
  | none => rfl
  | some type => rfl

theorem codeStart_of_dash {t : Source} {off e : ℕ} (h : t.mem off = dash) (he : off ≤ e) :
    off + 1 ≤ codeStart t off e ∧ codeStart t off e ≤ e + 1 ∧
      (∀ i, off < i → i < codeStart t off e → isBlank (t.mem i) = true) ∧
      (codeStart t off e ≤ e → isBlank (t.mem (codeStart t off e)) = false) := by
  have hle : skip isBlank t.mem (e - off) (off + 1) ≤ off + 1 + (e - off) := skip_le _ _
  unfold codeStart
  rw [if_pos h]
  refine ⟨le_skip _ _, by omega, fun i hi hlt => skip_all _ _ hi hlt, fun hstop => ?_⟩
  exact skip_stop _ _ (by omega)

/-- A closed tag. -/
theorem closed_safe_iff {t : Source} {p : Parser} {e : ℕ} (hoff : 0 < p.off)
    (hbefore : t.mem (p.off - 1) = percent) (hle : p.off ≤ e) (hsize : e ≤ t.size)
    (hend : t.mem e = percent) :
    Safe t (templateCode t p e).curChunk ↔ ¬(e = p.off + 1 ∧ t.mem p.off = dash) := by
  have hpercent : percent ≠ dash := by decide
  rw [templateCode_safe]
  -- with an empty body the byte in front of the end is the one of the opening tag
  have hempty : e = p.off → t.mem (e - 1) ≠ dash := by
    rintro rfl
    rw [hbefore]
    exact hpercent
  by_cases hdash : t.mem p.off = dash
  · obtain ⟨hlo, hhi, hall, hstop⟩ := codeStart_of_dash hdash hle
    set s := codeStart t p.off e with hs
    have hne : p.off ≠ e := by
      rintro heq
      rw [heq, hend] at hdash
      exact hpercent hdash
    have hse : s ≤ e := by
      by_contra hgt
      have hblank := hall e (by omega) (by omega)
      rw [hend] at hblank
      exact absurd hblank (by decide)
    have hstop' := hstop hse
    unfold codeEnd
    by_cases hafter : t.mem (e - 1) = dash
    · rw [if_pos hafter]
      by_cases hone : e = p.off + 1
      · have hfalse : ¬(s + (if (tagType (t.mem s)).isSome then 1 else 0) ≤ e - 1 ∧
            e - 1 ≤ t.size) := by
          split <;> omega
        exact ⟨fun h => absurd h hfalse, fun h => absurd ⟨hone, hdash⟩ h⟩
      · have hlast : s ≤ e - 1 := by
          by_contra hgt
          have hblank := hall (e - 1) (by omega) (by omega)
          rw [hafter, dash_not_blank] at hblank
          exact absurd hblank (by simp)
        refine ⟨fun _ h => hone h.1, fun _ => ⟨?_, by omega⟩⟩
        split
        · rename_i htype
          have hne' : s ≠ e - 1 := by
            intro heq
            rw [heq, hafter, tagType_dash] at htype
            exact absurd htype (by simp)
          omega
        · omega
    · rw [if_neg hafter]
      refine ⟨fun _ h => ?_, fun _ => ⟨?_, hsize⟩⟩
      · rw [h.1, Nat.add_sub_cancel] at hafter
        exact hafter hdash
      · split
        · rename_i htype
          have hne' : s ≠ e := by
            intro heq
            rw [heq, hend] at htype
            exact absurd htype (by decide)
          omega
        · omega
  · have hs : codeStart t p.off e = p.off := by
      unfold codeStart
      rw [if_neg hdash]
    rw [hs]
    refine ⟨fun _ h => hdash h.2, fun _ => ?_⟩
    unfold codeEnd
    by_cases hafter : t.mem (e - 1) = dash
    · rw [if_pos hafter]
      have hne : e ≠ p.off := fun heq => hempty heq hafter
      have hne' : e ≠ p.off + 1 := by
        intro heq
        rw [heq, Nat.add_sub_cancel] at hafter
        exact hdash hafter
      refine ⟨?_, by omega⟩
      split <;> omega
    · rw [if_neg hafter]
      refine ⟨?_, hsize⟩
      split
      · rename_i htype
        have hne : p.off ≠ e := by
          intro heq
          rw [heq, hend] at htype
          exact absurd htype (by decide)
        omega
      · omega

/-- An unclosed tag. -/
theorem unclosed_safe_iff {t : Source} {p : Parser} (hoff : 0 < p.off)
    (hbefore : t.mem (p.off - 1) = percent) (hle : p.off ≤ t.size) :
    Safe t (templateCode t p t.size).curChunk ↔ RestOk t p.off := by
  have hpercent : percent ≠ dash := by decide
  rw [templateCode_safe]
  by_cases hdash : t.mem p.off = dash
  · obtain ⟨hlo, hhi, hall, hstop⟩ := codeStart_of_dash hdash hle
    set s := codeStart t p.off t.size with hs
    unfold codeEnd RestOk
    by_cases hafter : t.mem (t.size - 1) = dash
    · rw [if_pos hafter]
      have hne : p.off ≠ t.size := by
        intro heq
        rw [← heq, hbefore] at hafter
        exact hpercent hafter
      by_cases hone : p.off + 1 = t.size
      · have hfalse : ¬(s + (if (tagType (t.mem s)).isSome then 1 else 0) ≤ t.size - 1 ∧
            t.size - 1 ≤ t.size) := by
          split <;> omega
        exact ⟨fun h => absurd h hfalse, fun h => absurd ⟨hone, hdash⟩ h.2.1⟩
      · have hlast : s ≤ t.size - 1 := by
          by_contra hgt
          have hblank := hall (t.size - 1) (by omega) (by omega)
          rw [hafter, dash_not_blank] at hblank
          exact absurd hblank (by simp)
        refine ⟨fun _ => ⟨fun h => absurd h hne, fun h => hone h.1, fun hlt _ hblanks => ?_⟩,
          fun _ => ⟨?_, by omega⟩⟩
        · have hblank := hblanks (t.size - 1) (by omega) (by omega)
          rw [hafter, dash_not_blank] at hblank
          exact absurd hblank (by simp)
        · split
          · rename_i htype
            have hne' : s ≠ t.size - 1 := by
              intro heq
              rw [heq, hafter, tagType_dash] at htype
              exact absurd htype (by simp)
            omega
          · omega
    · rw [if_neg hafter]
      have hnone : ¬(p.off + 1 = t.size ∧ t.mem p.off = dash) := by
        rintro ⟨hone, _⟩
        rw [← hone, Nat.add_sub_cancel] at hafter
        exact hafter hdash
      constructor
      · rintro ⟨hsafe, _⟩
        refine ⟨fun heq => ?_, hnone, fun hlt _ hblanks => ?_⟩
        · omega
        · -- only blanks up to the end
          have hsize : s = t.size := by
            by_contra hne
            have hlt' : s < t.size := by omega
            have hblank := hblanks s (by omega) hlt'
            rw [hstop (by omega)] at hblank
            exact absurd hblank (by simp)
          have hblank := hstop (by omega)
          rw [hsize] at hsafe hblank
          refine ⟨hblank, ?_⟩
          by_contra htype
          rw [if_pos (Option.isSome_iff_ne_none.mpr htype)] at hsafe
          omega
      · rintro ⟨hend, _, hblanks⟩
        refine ⟨?_, le_refl _⟩
        have hne : p.off ≠ t.size := by
          intro heq
          exact (hend heq).1 (heq ▸ hdash)
        by_cases hall' : ∀ i, p.off < i → i < t.size → isBlank (t.mem i) = true
        · have hlt : p.off + 1 < t.size := by
            by_contra hge
            exact hnone ⟨by omega, hdash⟩
          obtain ⟨hblank, htype⟩ := hblanks hlt hdash hall'
          have hsize : s = t.size := by
            rcases Nat.lt_trichotomy s t.size with hlt' | heq | hgt
            · have htrue := hall' s (by omega) hlt'
              rw [hstop (by omega)] at htrue
              exact absurd htrue (by simp)
            · exact heq
            · have htrue := hall t.size (by omega) hgt
              rw [hblank] at htrue
              exact absurd htrue (by simp)
          rw [hsize, htype, if_neg (by simp)]
          omega
        · have hlt : s < t.size := by
            by_contra hge
            exact hall' fun i hi hlt => hall i hi (by omega)
          split <;> omega
  · have hs : codeStart t p.off t.size = p.off := by
      unfold codeStart
      rw [if_neg hdash]
    rw [hs]
    unfold codeEnd RestOk
    by_cases hempty : p.off = t.size
    · have hafter : t.mem (t.size - 1) ≠ dash := by
        rw [← hempty, hbefore]
        exact hpercent
      rw [if_neg hafter]
      constructor
      · rintro ⟨hsafe, _⟩
        refine ⟨fun _ => ⟨hempty ▸ hdash, ?_⟩, fun h => hdash h.2, fun hlt => by omega⟩
        by_contra htype
        rw [hempty, if_pos (Option.isSome_iff_ne_none.mpr htype)] at hsafe
        omega
      · rintro ⟨hend, _, _⟩
        rw [hempty, (hend hempty).2, if_neg (by simp)]
        omega
    · refine ⟨fun _ => ⟨fun h => absurd h hempty, fun h => hdash h.2, fun _ h => absurd h hdash⟩,
        fun _ => ?_⟩
      by_cases hafter : t.mem (t.size - 1) = dash
      · rw [if_pos hafter]
        have hne : p.off ≠ t.size - 1 := by
          intro heq
          rw [← heq] at hafter
          exact hdash hafter
        refine ⟨?_, by omega⟩
        split <;> omega
      · rw [if_neg hafter]
        refine ⟨?_, le_refl _⟩
        split <;> omega

/-- A text. -/
theorem text_safe_iff {t : Source} {p : Parser} {e : ℕ} (hle : p.off ≤ e) (hsize : e ≤ t.size) :
    Safe t (templateText t p e).curChunk ↔
      (p.off < t.size → p.stripAfter = true →
        ¬∀ i, p.off ≤ i → i ≤ e → isSpace (t.mem i) = true) := by
  unfold templateText
  by_cases hoff : p.off < t.size
  · rw [if_pos hoff]
    cases hstrip : p.stripAfter with
    | false => exact ⟨fun _ _ h => absurd h (by simp), fun _ => ⟨hle, hsize⟩⟩
    | true =>
      have hlo : p.off ≤ skip isSpace t.mem (e + 1 - p.off) p.off := le_skip _ _
      have hhi : skip isSpace t.mem (e + 1 - p.off) p.off ≤ p.off + (e + 1 - p.off) := skip_le _ _
      constructor
      · rintro ⟨hsafe, _⟩ _ _ hall
        have hlt : skip isSpace t.mem (e + 1 - p.off) p.off ≤ e := hsafe
        have hfalse : isSpace (t.mem (skip isSpace t.mem (e + 1 - p.off) p.off)) = false :=
          skip_stop _ _ (by omega)
        rw [hall _ hlo hlt] at hfalse
        exact absurd hfalse (by simp)
      · intro h
        refine ⟨?_, hsize⟩
        show skip isSpace t.mem (e + 1 - p.off) p.off ≤ e
        by_contra hgt
        exact h hoff rfl fun i hi hie => skip_all (e + 1 - p.off) p.off hi (by omega)
  · rw [if_neg hoff]
    exact ⟨fun _ h => absurd h hoff, fun _ => ⟨hle, hsize⟩⟩

/-- Between calls: inside a tag the bytes in front of the pointer opened it. -/
structure Inv (t : Source) (p : Parser) : Prop where
  off : p.off ≤ t.size
  tag : p.inExpr = true → 0 < p.off ∧ t.mem (p.off - 1) = percent

theorem Safe.trim {t : Source} {p : Parser} (h : Safe t p.prvChunk) : Safe t (trimChunk t p) := by
  unfold trimChunk
  dsimp only
  split
  · obtain ⟨hse, hsize⟩ := h
    set n := p.prvChunk.e - p.prvChunk.s with hn
    have hlo : p.prvChunk.s ≤ back isSpace t.mem n (p.prvChunk.s + n) := le_back _ _
    have hhi : back isSpace t.mem n p.prvChunk.e ≤ p.prvChunk.e := back_le _ _
    rw [show p.prvChunk.s + n = p.prvChunk.e by omega] at hlo
    exact ⟨hlo, hhi.trans hsize⟩
  · exact h

section

variable (translate : List Byte → Option (List Byte))

/-- Formatting only trims the previous chunk and counts lines. -/
theorem format_frame (t : Source) (p : Parser) :
    let q := (templateFormatChunk translate t p).2
    q.off = p.off ∧ q.inExpr = p.inExpr ∧ q.stripBefore = p.stripBefore ∧
      q.stripAfter = p.stripAfter ∧ q.curChunk = p.curChunk ∧ q.prvChunk = trimChunk t p := by
  unfold templateFormatChunk
  dsimp only
  split
  · exact ⟨rfl, rfl, rfl, rfl, rfl, rfl⟩
  · split
    · exact ⟨rfl, rfl, rfl, rfl, rfl, rfl⟩
    · exact ⟨rfl, rfl, rfl, rfl, rfl, rfl⟩

theorem templateText_frame (t : Source) (p : Parser) (e : ℕ) :
    (templateText t p e).prvChunk = p.prvChunk := by
  unfold templateText
  split <;> rfl

/-- One call: the new chunk is safe exactly when the condition holds, and the one
that is formatted was produced by the call before. -/
theorem templateReader_step {t : Source} {p : Parser} (h : Inv t p) :
    let q := (templateReader translate t p).2
    Inv t q ∧ (Safe t q.curChunk ↔ StepOk t p) ∧ (Safe t p.curChunk → Safe t q.prvChunk) := by
  unfold templateReader
  dsimp only
  set p' := { p with prvChunk := p.curChunk } with hp'
  have hsize := h.off
  by_cases hexpr : p.inExpr = true
  · rw [if_pos hexpr]
    obtain ⟨hpos, hbefore⟩ := h.tag hexpr
    cases hfind : strfind t.mem p.off (t.size - p.off) closeTag with
    | some i =>
      obtain ⟨hle, hend⟩ := strfind_closeTag hfind
      have hsafe : Safe t (templateCode t p' (p.off + i)).curChunk ↔
          ¬(p.off + i = p.off + 1 ∧ t.mem p.off = dash) :=
        closed_safe_iff hpos hbefore (Nat.le_add_right _ _) (by omega) hend
      set q := { templateCode t p' (p.off + i) with off := p.off + i + 2, inExpr := false } with hq
      obtain ⟨hoff, hin, _, _, hcur, hprv⟩ := format_frame translate t q
      dsimp only at hoff hin hcur hprv ⊢
      refine ⟨⟨?_, ?_⟩, ?_, ?_⟩
      · rw [hoff]
        show p.off + i + 2 ≤ t.size
        omega
      · intro htrue
        rw [hin] at htrue
        exact absurd htrue (by simp [hq])
      · rw [hcur]
        unfold StepOk
        rw [if_pos hexpr, hfind]
        dsimp only
        rw [hsafe]
        exact not_congr (and_congr_left' (by omega))
      · intro hprev
        rw [hprv]
        exact Safe.trim (show Safe t q.prvChunk from hprev)
    | none =>
      refine ⟨⟨hsize, h.tag⟩, ?_, fun hprev => hprev⟩
      unfold StepOk
      rw [if_pos hexpr, hfind]
      exact unclosed_safe_iff (show 0 < p'.off from hpos) hbefore hsize
  · rw [if_neg hexpr]
    cases hfind : strfind t.mem p.off (t.size - p.off) openTag with
    | some i =>
      obtain ⟨hle, hfirst, hsecond⟩ := strfind_openTag hfind
      have hsafe : Safe t (templateText t p' (p.off + i)).curChunk ↔ _ :=
        text_safe_iff (Nat.le_add_right _ _) (by omega)
      set q := { templateText t p' (p.off + i) with off := p.off + i + 2, inExpr := true } with hq
      obtain ⟨hoff, hin, _, _, hcur, hprv⟩ := format_frame translate t q
      dsimp only at hoff hin hcur hprv ⊢
      refine ⟨⟨?_, ?_⟩, ?_, ?_⟩
      · rw [hoff]
        show p.off + i + 2 ≤ t.size
        omega
      · intro _
        rw [hoff]
        exact ⟨Nat.succ_pos _, hsecond⟩
      · rw [hcur]
        unfold StepOk
        rw [if_neg hexpr, hfind]
        refine ⟨fun _ hnone => absurd hnone (by simp), fun _ => hsafe.mpr fun _ _ hall => ?_⟩
        have hspace := hall (p.off + i) (Nat.le_add_right _ _) (le_refl _)
        rw [hfirst] at hspace
        exact absurd hspace (by decide)
      · intro hprev
        rw [hprv]
        refine Safe.trim (show Safe t q.prvChunk from ?_)
        rw [show q.prvChunk = p'.prvChunk from templateText_frame t p' _]
        exact hprev
    | none =>
      have hsafe : Safe t (templateText t p' t.size).curChunk ↔ _ :=
        text_safe_iff hsize (le_refl _)
      set q := { templateText t p' t.size with off := t.size } with hq
      obtain ⟨hoff, hin, _, _, hcur, hprv⟩ := format_frame translate t q
      have hexpr' : q.inExpr = false := by
        rw [show q.inExpr = (templateText t p' t.size).inExpr from rfl]
        unfold templateText
        split <;> simpa using hexpr
      dsimp only at hoff hin hcur hprv ⊢
      refine ⟨⟨?_, ?_⟩, ?_, ?_⟩
      · rw [hoff]
      · intro htrue
        rw [hin, hexpr'] at htrue
        exact absurd htrue (by simp)
      · rw [hcur]
        unfold StepOk
        rw [if_neg hexpr, hfind]
        exact hsafe.trans ⟨fun h _ => h, fun h => h rfl⟩
      · intro hprev
        rw [hprv]
        refine Safe.trim (show Safe t q.prvChunk from ?_)
        rw [show q.prvChunk = p'.prvChunk from templateText_frame t p' _]
        exact hprev

theorem afterCalls_inv (t : Source) (n : ℕ) : Inv t (afterCalls translate t n) := by
  induction n with
  | zero => exact ⟨Nat.zero_le _, fun h => absurd h (by simp [afterCalls, templateOpen])⟩
  | succ n ih => exact (templateReader_step translate ih).1

/-- Every chunk that is produced or formatted is safe exactly when every call meets
the condition. -/
theorem template_chunks_safe (t : Source) :
    (∀ n, Safe t (afterCalls translate t n).curChunk ∧
      Safe t (afterCalls translate t n).prvChunk) ↔
      ∀ n, StepOk t (afterCalls translate t n) := by
  constructor
  · intro h n
    exact (templateReader_step translate (afterCalls_inv translate t n)).2.1.mp (h (n + 1)).1
  · intro h n
    induction n with
    | zero => exact ⟨⟨le_refl _, Nat.zero_le _⟩, ⟨le_refl _, Nat.zero_le _⟩⟩
    | succ n ih =>
      obtain ⟨_, hcur, hprv⟩ := templateReader_step translate (afterCalls_inv translate t n)
      exact ⟨hcur.mpr (h n), hprv ih.1⟩

end

/-- The template of a file or a string, with NUL bytes behind it. -/
def ofText (s : String) (h : (ascii s).length < 2 ^ 31) : Source := ⟨ascii s, fun _ => 0, h⟩

/-- The end of the chunk of a tag with a single dash is in front of its start. -/
theorem dash_tag_unsafe :
    let t := ofText "<%-%>" (by decide)
    let c := (afterCalls (fun _ => none) t 2).curChunk
    c.s = 3 ∧ c.e = 2 ∧ ¬Safe t c := by
  refine ⟨by decide +kernel, by decide +kernel, fun h => ?_⟩
  exact absurd h.1 (by decide +kernel)

end Iot7688.Template
