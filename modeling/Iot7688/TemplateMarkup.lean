import Iot7688.Lib.Markup
import Iot7688.TemplateUtils

/-!
pcdata and striptags write text that may stand anywhere in a page: no mark of markup is
left in it but the ampersand of an entity. pcdata leaves out control bytes and mends
malformed groups; everything else can be decoded from what it writes.
-/
namespace Iot7688.Template

open Lib Utf8 Markup

/-- The control bytes but tab, newline and carriage return. -/
def Control (b : Byte) : Prop := (b < 0x20 ∨ b = 0x7f) ∧ b ≠ 9 ∧ b ≠ 10 ∧ b ≠ 13

/-- A byte with the continuation bytes behind it that is not well-formed as a whole, or a
number that is no character. -/
def Malformed (p : List Byte) : Prop :=
  ∃ b conts, p = b :: conts ∧ 0x80 ≤ b ∧ (∀ c ∈ conts, Tail c) ∧ (¬WellFormed p ∨ p ∈ nonCharacters)

/-- The second text is the first one but for control bytes that are dropped and malformed
sequences that are replaced. -/
inductive Sanitized : List Byte → List Byte → Prop
  | nil : Sanitized [] []
  | keep {b : Byte} {s t : List Byte} : Sanitized s t → Sanitized (b :: s) (b :: t)
  | drop {b : Byte} {s t : List Byte} : Control b → Sanitized s t → Sanitized (b :: s) t
  | replace {p s t : List Byte} : Malformed p → Sanitized s t → Sanitized (p ++ s) (question :: t)

/-- What pcdata writes for a group. -/
def written : List Byte → List Byte
  | [] => []
  | b :: conts =>
      if isInvalidXml b then [] else if isMarkup b then numericEntity b else mended (b :: conts)

/-- What is decoded for a group. -/
def meant : List Byte → List Byte
  | [] => []
  | b :: conts => if isInvalidXml b then [] else mended (b :: conts)

theorem isMarkup_iff (b : Byte) : isMarkup b = true ↔ b ∈ marks := by
  revert b
  apply forall_byte
  decide

theorem isInvalidXml_iff (b : Byte) : isInvalidXml b = true ↔ Control b := by
  unfold Control
  revert b
  apply forall_byte
  decide

theorem numericEntity_eq {b : Byte} (hb : b ∈ marks) : numericEntity b = Markup.entity b := by
  simp only [marks, List.mem_cons, List.not_mem_nil, or_false] at hb
  obtain rfl | rfl | rfl | rfl | rfl := hb <;> decide +kernel

theorem invalid_le {b : Byte} (hb : isInvalidXml b = true) : b ≤ 0x7f := by
  unfold isInvalidXml at hb
  grind

theorem markup_le {b : Byte} (hb : isMarkup b = true) : b ≤ 0x7f := by
  unfold isMarkup at hb
  grind

theorem Group.ascii {b : Byte} {conts rest : List Byte} (h : Group (b :: conts) rest)
    (hb : b ≤ 0x7f) : conts = [] := by
  cases h with
  | single _ => rfl
  | multi hmany _ _ _ =>
    rw [mbNumChars_eq] at hmany
    grind

theorem keeps_ascii {b : Byte} (hzero : b ≠ 0) (hb : b ≤ 0x7f) : keeps [b] = true := by
  rw [keeps_other (by simp), Bool.and_eq_true, isAscii_iff]
  exact ⟨⟨hzero, by grind⟩, rfl⟩

theorem pcdataTurn_group {p rest : List Byte} (h : Group p rest) :
    pcdataTurn (p ++ rest) (p ++ rest).length = some (p.length, written p) := by
  have hvalid := validateUtf8_group h
  obtain ⟨b, conts, rfl⟩ := List.exists_cons_of_ne_nil h.ne_nil
  have hhead : (b :: conts ++ rest)[0]? = some b := rfl
  rw [pcdataTurn, written, hhead]
  dsimp only
  by_cases hinvalid : isInvalidXml b = true
  · obtain rfl := h.ascii (invalid_le hinvalid)
    simp [hinvalid]
  by_cases hmarkup : isMarkup b = true
  · obtain rfl := h.ascii (markup_le hmarkup)
    simp [hinvalid, hmarkup]
  rw [if_neg hinvalid, if_neg hmarkup, if_neg hinvalid, if_neg hmarkup]
  by_cases hascii : b ≤ 0x7f
  · obtain rfl := h.ascii hascii
    have hzero : b ≠ 0 := by
      rintro rfl
      exact hinvalid (by decide)
    rw [if_pos hascii, mended, if_pos (keeps_ascii hzero hascii)]
    rfl
  · rw [if_neg hascii]
    exact hvalid

theorem pcdata_groups {s : List Byte} {ps : List (List Byte)} (h : Groups ps s) :
    pcdata s = some (ps.flatMap written) :=
  scanFrom_groups pcdataTurn_group h rfl (Nat.zero_le _) (Nat.lt_succ_self _)

theorem tail_not_mark {b : Byte} (h : Tail b) : b ∉ marks := by
  intro hb
  have hlow : ∀ b ∈ marks, ¬Tail b := by decide +kernel
  exact hlow b hb h

/-- No mark is in a group but its first byte. -/
theorem mended_plain {b : Byte} {conts rest : List Byte} (h : Group (b :: conts) rest)
    (hb : isMarkup b = false) : ∀ c ∈ mended (b :: conts), c ∉ marks := by
  unfold mended
  split
  · refine List.forall_mem_cons.mpr ⟨?_, fun c hc => tail_not_mark (h.tails c hc)⟩
    rw [← isMarkup_iff, hb]
    exact Bool.false_ne_true
  · decide +kernel

theorem escaped_written {p rest : List Byte} (h : Group p rest) : Escaped (written p) := by
  obtain ⟨b, conts, rfl⟩ := List.exists_cons_of_ne_nil h.ne_nil
  rw [written]
  split
  · exact .nil
  split
  next hb =>
    rw [isMarkup_iff] at hb
    rw [numericEntity_eq hb]
    exact escaped_entity hb
  next hb => exact escaped_of_plain (mended_plain h (Bool.eq_false_iff.mpr hb))

theorem decode_written {p rest : List Byte} (h : Group p rest) (s : List Byte) :
    decode (written p ++ s) = meant p ++ decode s := by
  obtain ⟨b, conts, rfl⟩ := List.exists_cons_of_ne_nil h.ne_nil
  rw [written, meant]
  split
  · rfl
  split
  next hb =>
    have hle := markup_le hb
    obtain rfl := h.ascii hle
    have hkeeps := keeps_ascii (b := b) (by rintro rfl; cases hb) hle
    rw [isMarkup_iff] at hb
    rw [numericEntity_eq hb, decode_entity hb, mended, if_pos hkeeps]
    rfl
  next hb => exact decode_plains (mended_plain h (Bool.eq_false_iff.mpr hb)) s

theorem decode_flatMap {ps : List (List Byte)} {s : List Byte} (h : Groups ps s) :
    decode (ps.flatMap written) = ps.flatMap meant := by
  induction h with
  | nil => rfl
  | cons hp _ ih => rw [List.flatMap_cons, List.flatMap_cons, decode_written hp, ih]

theorem escaped_flatMap {ps : List (List Byte)} {s : List Byte} (h : Groups ps s) :
    Escaped (ps.flatMap written) := by
  induction h with
  | nil => exact .nil
  | cons hp _ ih => exact (escaped_written hp).append ih

theorem Group.malformed {b : Byte} {conts rest : List Byte} (h : Group (b :: conts) rest)
    (hinvalid : isInvalidXml b = false) (hkeeps : ¬keeps (b :: conts) = true) :
    Malformed (b :: conts) := by
  have hzero : b ≠ 0 := by
    rintro rfl
    cases hinvalid
  have hb : 0x80 ≤ b := by
    by_contra hlow
    have hle : b ≤ 0x7f := by grind
    obtain rfl := h.ascii hle
    exact hkeeps (keeps_ascii hzero hle)
  refine ⟨b, conts, rfl, hb, h.tails, ?_⟩
  by_contra hgood
  rw [not_or, not_not] at hgood
  have halone : Group (b :: conts) [] := by
    cases h with
    | single hone => exact .single hone
    | multi hmany htails hle _ => exact .multi hmany htails hle fun _ b hb => by cases hb
  have hchar := (halone.character (by rw [List.append_nil]; exact hgood.1)).1
  exact hkeeps ((keeps_iff h.tails).mpr ⟨.inl ⟨hchar, hzero⟩, hgood.2⟩)

theorem Sanitized.keeps {s t : List Byte} (h : Sanitized s t) (p : List Byte) :
    Sanitized (p ++ s) (p ++ t) := by
  induction p with
  | nil => exact h
  | cons b p ih => exact .keep ih

theorem sanitized_meant {ps : List (List Byte)} {s : List Byte} (h : Groups ps s) :
    Sanitized s (ps.flatMap meant) := by
  induction h with
  | nil => exact .nil
  | @cons p rest ps hp _ ih =>
    obtain ⟨b, conts, rfl⟩ := List.exists_cons_of_ne_nil hp.ne_nil
    rw [List.flatMap_cons, meant]
    by_cases hinvalid : isInvalidXml b = true
    · obtain rfl := hp.ascii (invalid_le hinvalid)
      rw [if_pos hinvalid]
      exact .drop ((isInvalidXml_iff b).mp hinvalid) ih
    rw [if_neg hinvalid, mended]
    by_cases hkeeps : keeps (b :: conts) = true
    · rw [if_pos hkeeps]
      exact ih.keeps _
    · rw [if_neg hkeeps]
      exact .replace (hp.malformed (Bool.eq_false_iff.mpr hinvalid) hkeeps) ih

theorem meant_eq_mended {ps : List (List Byte)} {s : List Byte} (h : Groups ps s)
    (hs : ∀ b ∈ s, ¬Control b) : ps.flatMap meant = ps.flatMap mended := by
  induction h with
  | nil => rfl
  | @cons p rest ps hp _ ih =>
    obtain ⟨b, conts, rfl⟩ := List.exists_cons_of_ne_nil hp.ne_nil
    have hb : ¬isInvalidXml b = true := fun hb => hs b (by simp) ((isInvalidXml_iff b).mp hb)
    rw [List.flatMap_cons, List.flatMap_cons, meant, if_neg hb,
      ih fun c hc => hs c (List.mem_append_right _ hc)]

theorem escaped_stripFrom (turns : ℕ) (prev : Byte) (s : List Byte) :
    Escaped (stripFrom turns prev s) := by
  have hspace : ∀ c, isSpace c = true → c ∉ marks := by
    apply forall_byte
    decide
  induction turns generalizing prev s with
  | zero => exact .nil
  | succ turns ih =>
    cases s with
    | nil => exact .nil
    | cons c s =>
      rw [stripFrom]
      split
      · cases behindTag (c :: s) with
        | none => exact ih prev s
        | some rest =>
          refine Escaped.append ?_ (ih 0x20 rest)
          split
          · exact .nil
          · exact escaped_of_plain (by decide +kernel)
      split
      next hc =>
        refine Escaped.append ?_ (ih c s)
        split
        · exact .nil
        · exact .plain (hspace c hc) .nil
      next =>
        refine Escaped.append ?_ (ih c s)
        split
        next hc =>
          rw [isMarkup_iff] at hc
          rw [numericEntity_eq hc]
          exact escaped_entity hc
        next hc =>
          rw [isMarkup_iff] at hc
          exact .plain hc .nil

theorem zero_not_mem_written {ps : List (List Byte)} {s : List Byte} (h : Groups ps s) :
    0 ∉ ps.flatMap written := by
  have hentity : ∀ b ∈ marks, 0 ∉ Markup.entity b := by decide +kernel
  induction h with
  | nil => exact List.not_mem_nil
  | @cons p rest ps hp _ ih =>
    obtain ⟨b, conts, rfl⟩ := List.exists_cons_of_ne_nil hp.ne_nil
    rw [List.flatMap_cons, List.mem_append, not_or, written]
    refine ⟨?_, ih⟩
    split
    · exact List.not_mem_nil
    split
    next hb =>
      rw [isMarkup_iff] at hb
      rw [numericEntity_eq hb]
      exact hentity b hb
    next => exact hp.zero_not_mem

/-- What both functions write is safe in a page, and pcdata's text decodes to its input
but for control bytes and malformed sequences. -/
theorem markup_safe (s : List Byte) :
    (∃ out, pcdata s = some out ∧ 0 ∉ out ∧ Markup.Safe out ∧ Sanitized s (decode out) ∧
      ((∀ b ∈ s, ¬Control b) → WellFormed s → (∀ p ∈ nonCharacters, ¬p <:+: s) → decode out = s)) ∧
    Markup.Safe (striptags s) ∧ Markup.Safe ((striptags s).takeWhile (· ≠ 0)) := by
  obtain ⟨ps, hps⟩ := exists_groups s
  have hdecode := decode_flatMap hps
  have hstrip : Escaped (striptags s) := escaped_stripFrom _ _ _
  refine ⟨⟨_, pcdata_groups hps, zero_not_mem_written hps, (escaped_flatMap hps).safe, ?_, ?_⟩,
    hstrip.safe, hstrip.takeWhile.safe⟩
  · rw [hdecode]
    exact sanitized_meant hps
  · intro hcontrol hwf hnon
    have hzero : 0 ∉ s := fun h => hcontrol 0 h (by unfold Control; decide)
    rw [hdecode, meant_eq_mended hps hcontrol, mended_of_wellFormed hps hwf hzero hnon]

end Iot7688.Template
