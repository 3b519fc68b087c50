import Iot7688.Lib.LuaString
import Iot7688.Template

/-!
The string literals in the code for a template. luastr_escape writes a backslash in front
of the three characters that it knows to end or to break a literal; a carriage return,
which breaks one as well, is written as it is.
-/
namespace Iot7688.Template

open Lib Lua

/-- The chunks whose bytes become a literal. -/
def ChunkType.Quoted (type : ChunkType) : Prop :=
  type = .text ∨ type = .include ∨ type = .i18n ∨ type = .i18nRaw

/-- The call around the literal of a chunk. -/
def ChunkType.call (type : ChunkType) : List Byte :=
  ascii (if type = .include then "include(" else "write(")

/-- The text that a chunk stands for; a phrase without a translation stands for itself. -/
def chunkText (translate : List Byte → Option (List Byte)) (type : ChunkType) (bytes : List Byte) :
    List Byte :=
  if type = .i18n ∨ type = .i18nRaw then (translate bytes).getD bytes else bytes

def ChunkType.escapesXml (type : ChunkType) : Bool := type = .i18n

/-- The numeric entity of a character with a meaning in XML. -/
def entity (b : Byte) : List Byte :=
  if b = 0x22 then ascii "&#34;"
  else if b = 0x26 then ascii "&#38;"
  else if b = 0x27 then ascii "&#39;"
  else if b = 0x3c then ascii "&#60;"
  else if b = 0x3e then ascii "&#62;"
  else [b]

/-- The text that a literal is to have as its value. -/
def literalText (escapeXml : Bool) (s : List Byte) : List Byte :=
  if escapeXml then s.flatMap entity else s

/-- The code for a chunk is a call whose one argument is a literal with the given value. -/
def Denotes (type : ChunkType) (code value : List Byte) : Prop :=
  ∃ rest, code = type.call ++ rest ∧ literal rest = some (value, ascii ")")

/-- Bytes without a meaning for the lexer are read as they are. -/
theorem readString_plains {bytes : List Byte}
    (h : ∀ b ∈ bytes, b ≠ quote ∧ isNewline b = false ∧ b ≠ backslash) (rest : List Byte) :
    readString quote (bytes ++ rest) =
      (readString quote rest).map fun r => (bytes ++ r.1, r.2) := by
  induction bytes with
  | nil =>
    rw [List.nil_append]
    cases readString quote rest <;> rfl
  | cons b bytes ih =>
    obtain ⟨hquote, hline, hslash⟩ := h b List.mem_cons_self
    rw [List.cons_append, readString_plain hquote hline hslash,
      ih fun c hc => h c (List.mem_cons_of_mem b hc)]
    cases readString quote rest <;> rfl

theorem readString_escaped {b c : Byte} {rest : List Byte} (h : escape (b :: rest) = some ([c], rest)) :
    readString quote ([backslash, b] ++ rest) =
      (readString quote rest).map fun r => ([c] ++ r.1, r.2) :=
  readString_escape (by decide) h

theorem escapeByte_entity {b : Byte} (h : b = 0x22 ∨ b = 0x27 ∨ b = 0x26 ∨ b = 0x3c ∨ b = 0x3e) :
    escapeByte true b = entity b ∧
      ∀ c ∈ entity b, c ≠ quote ∧ isNewline c = false ∧ c ≠ backslash := by
  rcases h with rfl | rfl | rfl | rfl | rfl <;> decide +kernel

theorem entity_of_not {b : Byte} (h : ¬(b = 0x22 ∨ b = 0x27 ∨ b = 0x26 ∨ b = 0x3c ∨ b = 0x3e)) :
    entity b = [b] := by
  unfold entity
  grind

/-- Each byte but a carriage return is read back. -/
theorem readString_escapeByte (escapeXml : Bool) {b : Byte} (hb : b ≠ carriageReturn)
    (rest : List Byte) : readString quote (escapeByte escapeXml b ++ rest) =
      (readString quote rest).map fun r => (literalText escapeXml [b] ++ r.1, r.2) := by
  by_cases hslash : b = backslash
  · subst hslash
    cases escapeXml <;> exact readString_escaped rfl
  by_cases hline : b = newline
  · subst hline
    cases escapeXml <;> exact readString_escaped rfl
  by_cases hxml : escapeXml = true ∧ (b = 0x22 ∨ b = 0x27 ∨ b = 0x26 ∨ b = 0x3c ∨ b = 0x3e)
  · obtain ⟨rfl, hxml⟩ := hxml
    obtain ⟨heq, hplain⟩ := escapeByte_entity hxml
    have htext : literalText true [b] = entity b := List.flatMap_singleton _ _
    rw [heq, htext]
    exact readString_plains hplain rest
  have htext : literalText escapeXml [b] = [b] := by
    cases escapeXml with
    | false => rfl
    | true => exact (List.flatMap_singleton _ _).trans (entity_of_not fun h => hxml ⟨rfl, h⟩)
  rw [htext]
  by_cases hquote : b = quote
  · subst hquote
    have hfalse : escapeXml = false := by
      rw [← Bool.not_eq_true]
      exact fun h => hxml ⟨h, .inl rfl⟩
    rw [hfalse]
    exact readString_escaped rfl
  have hbyte : escapeByte escapeXml b = [b] := by
    rw [escapeByte, if_neg (show ¬b = 0x5c from hslash), if_neg (show ¬b = 0x22 from hquote),
      if_neg (show ¬b = 0x0a from hline), if_neg]
    intro h
    simp only [Bool.and_eq_true, Bool.or_eq_true, beq_iff_eq] at h
    exact hxml ⟨h.1, .inr (by tauto)⟩
  have hnewline : isNewline b = false := by
    rw [isNewline, beq_eq_false_iff_ne.mpr hline, beq_eq_false_iff_ne.mpr hb]
    rfl
  rw [hbyte, List.singleton_append, readString_plain hquote hnewline hslash]
  rfl

theorem literalText_cons (escapeXml : Bool) (b : Byte) (s : List Byte) :
    literalText escapeXml (b :: s) = literalText escapeXml [b] ++ literalText escapeXml s := by
  cases escapeXml with
  | false => rfl
  | true => simp [literalText]

theorem readString_luastrEscape (escapeXml : Bool) {s : List Byte} (h : carriageReturn ∉ s)
    (rest : List Byte) : readString quote (luastrEscape escapeXml s ++ quote :: rest) =
      some (literalText escapeXml s, rest) := by
  induction s with
  | nil =>
    refine readString_end.trans ?_
    cases escapeXml <;> rfl
  | cons b s ih =>
    rw [List.mem_cons, not_or] at h
    rw [luastrEscape, List.flatMap_cons, List.append_assoc,
      readString_escapeByte escapeXml (Ne.symm h.1), ← luastrEscape, ih h.2,
      literalText_cons escapeXml b s]
    rfl

/-- The first carriage return leaves the literal unfinished. -/
theorem readString_carriageReturn (escapeXml : Bool) {s : List Byte} (h : carriageReturn ∈ s)
    (rest : List Byte) : readString quote (luastrEscape escapeXml s ++ rest) = none := by
  induction s with
  | nil => cases h
  | cons b s ih =>
    rw [luastrEscape, List.flatMap_cons, List.append_assoc, ← luastrEscape]
    by_cases hb : b = carriageReturn
    · subst hb
      cases escapeXml <;> exact readString_newline (by decide) rfl
    · have hs : carriageReturn ∈ s := (List.mem_cons.mp h).resolve_left (Ne.symm hb)
      rw [readString_escapeByte escapeXml hb, ih hs]
      rfl

theorem chunkString_quoted (translate : List Byte → Option (List Byte)) {type : ChunkType}
    (htype : type.Quoted) (bytes : List Byte) : chunkString translate type bytes =
      type.call ++ quote :: (luastrEscape type.escapesXml (chunkText translate type bytes) ++
        quote :: ascii ")") := by
  rcases htype with rfl | rfl | rfl | rfl <;>
    simp [chunkString, chunkBody, chunkText, luastrTranslate, genCode, ChunkType.call, ascii,
      ChunkType.escapesXml, quote]

/-- The code for a chunk has the text of the chunk as the value of its literal exactly when
that has no carriage return. -/
theorem chunk_literal_iff (translate : List Byte → Option (List Byte)) (type : ChunkType)
    (htype : type.Quoted) (bytes : List Byte) :
    Denotes type (chunkString translate type bytes)
        (literalText type.escapesXml (chunkText translate type bytes)) ↔
      carriageReturn ∉ chunkText translate type bytes := by
  constructor
  · rintro ⟨rest, hcode, hvalue⟩ hmem
    rw [chunkString_quoted translate htype] at hcode
    rw [← List.append_cancel_left hcode, literal, if_pos (.inl rfl),
      readString_carriageReturn _ hmem] at hvalue
    cases hvalue
  · intro hmem
    refine ⟨_, chunkString_quoted translate htype bytes, ?_⟩
    rw [literal, if_pos (.inl rfl)]
    exact readString_luastrEscape _ hmem _

/-- A line of text that ends as on DOS. -/
theorem carriage_return_unfinished :
    ¬Denotes .text (chunkString (fun _ => none) .text [0x61, 0x0d]) [0x61, 0x0d] := by
  rintro ⟨rest, hcode, hvalue⟩
  have hcall : chunkString (fun _ => none) .text [0x61, 0x0d] =
      ChunkType.call .text ++ [0x22, 0x61, 0x0d, 0x22, 0x29] := by decide
  rw [← List.append_cancel_left (hcall.symm.trans hcode)] at hvalue
  revert hvalue
  decide

theorem chunk_literal_quotes :
    Denotes .i18n (chunkString (fun _ => none) .i18n [0x5c, 0x22, 0x0a, 0x00, 0x31])
      (literalText true [0x5c, 0x22, 0x0a, 0x00, 0x31]) :=
  (chunk_literal_iff (fun _ => none) .i18n (.inr (.inr (.inl rfl))) _).mpr (by decide)

end Iot7688.Template
