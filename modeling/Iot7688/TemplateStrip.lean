import Iot7688.Template

/-!
What the reader hands out for a template whose tags are all closed: one string for
each text and one for each tag, a call late. A dash at the end of a tag takes the
space that follows, a dash at its start the space in front. After the last tag the
flag for the space in front is still set, so the last text loses its trailing space
with it.
-/
namespace Iot7688.Template

open Lib

/-- A tag up to its end, and the text behind it up to the next tag. -/
structure Tag where
  body : List Byte
  text : List Byte
  bodyPlain : ¬closeTag <:+: body
  textPlain : ¬openTag <:+: text

def Tag.bytes (tag : Tag) : List Byte := openTag ++ tag.body ++ closeTag ++ tag.text

/-- A template of texts and closed tags. -/
structure Page where
  text : List Byte
  tags : List Tag
  textPlain : ¬openTag <:+: text
  past : ℕ → Byte
  small : (text ++ tags.flatMap Tag.bytes).length < 2 ^ 31

def Page.source (page : Page) : Source := ⟨page.text ++ page.tags.flatMap Tag.bytes, page.past,
  page.small⟩

def startsDash (body : List Byte) : Bool := body.head? == some dash
def endsDash (body : List Byte) : Bool := body.getLast? == some dash

/-- A text without its leading space, if the tag in front asks for it, and without its
trailing space, if the tag behind does. -/
def trim (before after : Bool) (text : List Byte) : List Byte :=
  let text := if after then text.dropWhile isSpace else text
  if before then text.rdropWhile isSpace else text

def writeText (text : List Byte) : List Byte :=
  ascii "write(\"" ++ luastrEscape false text ++ ascii "\")"

/-- The strings that stand for a text; there are two for the empty one. -/
def TextOut (text out : List Byte) : Prop := out = writeText text ∨ text = [] ∧ out = ascii " "

/-- The body of a tag without its dashes. -/
def codeBody (body : List Byte) : List Byte :=
  let code := if startsDash body then body.tail.dropWhile isBlank else body
  if endsDash body then code.dropLast else code

section

variable (translate : List Byte → Option (List Byte))

def tagString (body : List Byte) : List Byte :=
  match codeBody body with
  | [] => ascii " "
  | b :: rest =>
      match tagType b with
      | some type => if rest = [] then ascii " " else chunkString translate type rest
      | none => chunkString translate .code (b :: rest)

/-- The strings stand for the texts and tags; an empty last text has no string. -/
def Represents (after : Bool) (text : List Byte) : List Tag → List (List Byte) → Prop
  | [], outs => (text = [] ∧ outs = []) ∨
      (text ≠ [] ∧ ∃ out, TextOut (trim false after text) out ∧ outs = [out])
  | tag :: tags, outs => ∃ out rest, TextOut (trim (startsDash tag.body) after text) out ∧
      Represents (endsDash tag.body) tag.text tags rest ∧
      outs = out :: tagString translate tag.body :: rest

/-- No tag is a single dash, and the last text has no trailing space to lose where the
last tag starts with a dash. -/
def Clean (after before : Bool) (text : List Byte) : List Tag → Prop
  | [] => before = true → ∀ b ∈ (trim false after text).getLast?, isSpace b = false
  | tag :: tags => tag.body ≠ [dash] ∧
      Clean (endsDash tag.body) (startsDash tag.body) tag.text tags

/-- Some number of calls reaches the end, and the strings satisfy a property. -/
def Reads (t : Source) (p : Parser) (P : List (List Byte) → Prop) : Prop :=
  ∃ n outs, readAll translate t n p = some outs ∧ P outs

theorem reads_eof {t : Source} {p q : Parser} (P : List (List Byte) → Prop)
    (h : templateReader translate t p = (.eof, q)) : Reads translate t p P ↔ P [] := by
  constructor
  · rintro ⟨n, outs, hread, hP⟩
    cases n with
    | zero => exact absurd hread (by simp [readAll])
    | succ n =>
      unfold readAll at hread
      rw [h] at hread
      rw [← Option.some.inj hread] at hP
      exact hP
  · intro hP
    refine ⟨1, [], ?_, hP⟩
    unfold readAll
    rw [h]

theorem reads_str {t : Source} {p q : Parser} {out : List Byte} (P : List (List Byte) → Prop)
    (h : templateReader translate t p = (.str out, q)) :
    Reads translate t p P ↔ Reads translate t q fun outs => P (out :: outs) := by
  constructor
  · rintro ⟨n, outs, hread, hP⟩
    cases n with
    | zero => exact absurd hread (by simp [readAll])
    | succ n =>
      unfold readAll at hread
      rw [h] at hread
      obtain ⟨rest, hrest, rfl⟩ := Option.map_eq_some_iff.mp hread
      exact ⟨n, rest, hrest, hP⟩
  · rintro ⟨n, rest, hrest, hP⟩
    refine ⟨n + 1, out :: rest, ?_, hP⟩
    unfold readAll
    rw [h]
    show (readAll translate t n q).map _ = _
    rw [hrest]
    rfl

theorem reads_fault {t : Source} {p q : Parser} (P : List (List Byte) → Prop)
    (h : templateReader translate t p = (.fault, q)) : ¬Reads translate t p P := by
  rintro ⟨n, outs, hread, _⟩
  cases n with
  | zero => exact absurd hread (by simp [readAll])
  | succ n =>
    unfold readAll at hread
    rw [h] at hread
    exact absurd hread (by simp)

/-- The piece for a chunk. -/
def pieceOf (t : Source) (c : Chunk) : Piece :=
  if c.s = c.e then (if c.type = .eof then .eof else .str (ascii " "))
  else if c.e < c.s && c.type.usesLength then .fault
  else .str (chunkString translate c.type (slice t.mem c.s c.e))

theorem format_piece (t : Source) (p : Parser) :
    (templateFormatChunk translate t p).1 = pieceOf translate t (trimChunk t p) := by
  unfold templateFormatChunk pieceOf
  dsimp only
  split
  · rfl
  · split
    · rfl
    · rfl

end

/-- A part of the template, read from memory. -/
theorem slice_data {t : Source} {front part rear : List Byte}
    (h : t.data = front ++ part ++ rear) :
    slice t.mem front.length (front.length + part.length) = part := by
  refine List.ext_getElem ?_ fun i hi hi' => ?_
  · rw [slice_length, Nat.add_sub_cancel_left]
  · rw [slice_getElem]
    show t.data.getD (front.length + i) _ = part[i]
    rw [List.getD_eq_getElem?_getD, h, List.append_assoc,
      List.getElem?_append_right (Nat.le_add_right _ _), Nat.add_sub_cancel_left,
      List.getElem?_append_left hi', List.getElem?_eq_getElem hi']
    rfl

/-- The rest of the template. -/
theorem slice_rest {t : Source} {front rest : List Byte} (h : t.data = front ++ rest) :
    slice t.mem front.length (front.length + (t.size - front.length)) = rest := by
  have hsize : t.size - front.length = rest.length := by
    show t.data.length - _ = _
    rw [h, List.length_append, Nat.add_sub_cancel_left]
  rw [hsize]
  exact slice_data (show t.data = front ++ rest ++ [] by rw [h, List.append_nil])

theorem strfind_absent {m : Mem} {off n : ℕ} {needle text : List Byte}
    (hslice : slice m off (off + n) = text) (hplain : ¬needle <:+: text) :
    strfind m off n needle = none := by
  refine List.find?_eq_none.mpr fun i _ hfound => hplain ?_
  simp only [Bool.and_eq_true, decide_eq_true_eq, beq_iff_eq] at hfound
  obtain ⟨hle, heq⟩ := hfound
  rw [← heq, ← hslice]
  exact slice_infix m (Nat.le_add_right _ _) (Nat.le_add_right _ _) (by omega)

/-- The first match of two different bytes is behind a text that has none; the last
byte of the text starts no match as the first byte of the needle follows it. -/
theorem strfind_first {m : Mem} {off n : ℕ} {a b : Byte} {text rest : List Byte} (hab : a ≠ b)
    (hslice : slice m off (off + n) = text ++ [a, b] ++ rest) (hplain : ¬[a, b] <:+: text) :
    strfind m off n [a, b] = some text.length := by
  have hlen := congrArg List.length hslice
  simp only [slice_length, List.length_append, List.length_cons, List.length_nil] at hlen
  rw [List.append_assoc] at hslice
  obtain ⟨htext, hneedle⟩ := slice_split hslice
  rw [slice_cons m (by omega), slice_cons m (by omega)] at hneedle
  obtain ⟨hfirst, hneedle⟩ := List.cons.inj hneedle
  obtain ⟨hsecond, _⟩ := List.cons.inj hneedle
  have htwo : ∀ i, slice m i (i + [a, b].length) = [m i, m (i + 1)] := by
    intro i
    show slice m i (i + 2) = _
    rw [slice_cons m (by omega), slice_cons m (by omega), slice_empty m (le_refl _)]
  unfold strfind
  rw [List.find?_range_eq_some]
  refine ⟨?_, List.mem_range.mpr (by omega), fun j hj => ?_⟩
  · rw [htwo, hfirst, hsecond]
    simp only [Bool.and_eq_true, decide_eq_true_eq, beq_self_eq_true, and_true, List.length_cons,
      List.length_nil]
    omega
  · rw [Bool.not_eq_true', Bool.and_eq_false_imp]
    intro _
    rw [beq_eq_false_iff_ne]
    intro hmatch
    rcases Nat.lt_or_ge (j + 1) text.length with hin | hlast
    · refine hplain ?_
      rw [← hmatch, ← htext]
      refine slice_infix m (Nat.le_add_right _ _) (Nat.le_add_right _ _) ?_
      show off + j + 2 ≤ off + text.length
      omega
    · rw [htwo] at hmatch
      obtain ⟨_, hmatch⟩ := List.cons.inj hmatch
      obtain ⟨hbad, _⟩ := List.cons.inj hmatch
      rw [show off + j + 1 = off + text.length by omega, hfirst] at hbad
      exact hab hbad

section

variable (translate : List Byte → Option (List Byte))

theorem chunkString_text (text : List Byte) :
    chunkString translate .text text = writeText text := by
  have hne : writeText text ≠ [] := by
    intro hnil
    have hlen := congrArg List.length hnil
    unfold writeText at hlen
    rw [List.length_append, List.length_append] at hlen
    exact absurd hlen (by simp [ascii])
  have heq : (genCode .text).1 ++ chunkBody translate .text text ++ (genCode .text).2 =
      writeText text := rfl
  unfold chunkString
  dsimp only
  rw [heq, if_neg hne]

/-- The piece for a text, with the flags of the tags on both sides. -/
theorem text_piece {t : Source} {p q : Parser} {e : ℕ} {text : List Byte} (hoff : p.off < t.size)
    (hle : p.off ≤ e) (hslice : slice t.mem p.off e = text)
    (hq : q.prvChunk = (templateText t p e).curChunk) :
    ∃ out, pieceOf translate t (trimChunk t q) = .str out ∧
      TextOut (trim q.stripBefore p.stripAfter text) out := by
  unfold templateText at hq
  rw [if_pos hoff] at hq
  dsimp only at hq
  set s := if p.stripAfter = true then skip isSpace t.mem (e + 1 - p.off) p.off else p.off with hs
  set e' := if q.stripBefore = true then back isSpace t.mem (e - s) e else e with he'
  have hchunk : trimChunk t q = ⟨s, e', .text, p.line⟩ := by
    unfold trimChunk
    dsimp only
    rw [hq]
    cases hbefore : q.stripBefore with
    | false => simp [he', hbefore]
    | true => simp [he', hbefore]
  have hwrite : ∀ bytes, (s ≠ e') → slice t.mem s e' = bytes →
      pieceOf translate t ⟨s, e', .text, p.line⟩ = .str (writeText bytes) := by
    intro bytes hne hbytes
    unfold pieceOf
    rw [if_neg hne, if_neg (by simp [ChunkType.usesLength]), hbytes, chunkString_text]
  rw [hchunk]
  rcases Nat.lt_or_ge e s with hlt | hse
  · -- the pointer ran past the end
    have hafter : p.stripAfter = true := by
      by_contra hfalse
      rw [hs, if_neg hfalse] at hlt
      omega
    have hends : e' = e := by
      rw [he', Nat.sub_eq_zero_of_le hlt.le]
      exact ite_self e
    have hnil : text.dropWhile isSpace = [] := by
      rw [hs, if_pos hafter] at hlt
      rw [← hslice]
      exact dropWhile_of_skip _ _ hlt
    have htrim : trim q.stripBefore p.stripAfter text = [] := by
      unfold trim
      rw [hafter, if_pos rfl, hnil]
      exact ite_self []
    exact ⟨_, hwrite [] (by omega) (slice_empty _ (by omega)), Or.inl (by rw [htrim])⟩
  · have hrest : slice t.mem s e = trim false p.stripAfter text := by
      unfold trim
      rw [if_neg Bool.false_ne_true, hs]
      rw [hs] at hse
      cases hafter : p.stripAfter with
      | false => exact hslice
      | true =>
        rw [hafter] at hse
        rw [← hslice]
        exact slice_skip _ _ hse (by omega)
    have hcut : s ≤ e' ∧ slice t.mem s e' = trim q.stripBefore p.stripAfter text := by
      rw [he']
      cases hbefore : q.stripBefore with
      | false => exact ⟨hse, hrest⟩
      | true =>
        have hlo : s ≤ back isSpace t.mem (e - s) (s + (e - s)) := le_back _ _
        have hback : slice t.mem s (back isSpace t.mem (e - s) (s + (e - s))) =
            (slice t.mem s (s + (e - s))).rdropWhile isSpace := slice_back _ _
        rw [show s + (e - s) = e by omega] at hlo hback
        refine ⟨hlo, ?_⟩
        rw [hrest] at hback
        exact hback
    by_cases hempty : s = e'
    · refine ⟨ascii " ", ?_, Or.inr ⟨?_, rfl⟩⟩
      · unfold pieceOf
        rw [if_pos hempty]
        rfl
      · rw [← hcut.2, slice_empty _ hempty.ge]
    · exact ⟨_, hwrite _ hempty hcut.2, Or.inl rfl⟩

/-- The dashes of a tag are the first and the last byte of its body. -/
theorem tag_flags {t : Source} {off e : ℕ} {body : List Byte} (hbefore : t.mem (off - 1) = percent)
    (hle : off ≤ e) (hend : t.mem e = percent) (hslice : slice t.mem off e = body) :
    (t.mem off == dash) = startsDash body ∧ (t.mem (e - 1) == dash) = endsDash body := by
  unfold startsDash endsDash
  rw [← hslice]
  rcases Nat.eq_or_lt_of_le hle with heq | hlt
  · subst heq
    rw [slice_empty _ (le_refl _), hend, hbefore]
    exact ⟨rfl, rfl⟩
  · constructor
    · rw [slice_cons _ hlt, List.head?_cons]
      rfl
    · obtain ⟨k, rfl⟩ : ∃ k, e = k + 1 := ⟨e - 1, by omega⟩
      rw [slice_concat _ (by omega), List.getLast?_concat]
      rfl

/-- The bytes between the ends that template_code finds. -/
theorem slice_code {t : Source} {off e : ℕ} {body : List Byte} (hle : off ≤ e)
    (hbefore : t.mem (off - 1) = percent) (hend : t.mem e = percent)
    (hslice : slice t.mem off e = body) (hsafe : codeStart t off e ≤ codeEnd t e) :
    slice t.mem (codeStart t off e) (codeEnd t e) = codeBody body := by
  obtain ⟨hstarts, hends⟩ := tag_flags hbefore hle hend hslice
  have hcode : codeStart t off e ≤ e := by
    refine hsafe.trans ?_
    unfold codeEnd
    split <;> omega
  have hfront : slice t.mem (codeStart t off e) e =
      if startsDash body then body.tail.dropWhile isBlank else body := by
    unfold codeStart at hcode ⊢
    rw [← hstarts]
    by_cases hdash : t.mem off = dash
    · rw [if_pos hdash] at hcode ⊢
      rw [if_pos (beq_iff_eq.mpr hdash)]
      have hlo : off + 1 ≤ skip isBlank t.mem (e - off) (off + 1) := le_skip _ _
      rw [slice_skip _ _ hcode (by omega), ← hslice, slice_cons _ (show off < e by omega),
        List.tail_cons]
    · rw [if_neg hdash] at hcode ⊢
      rw [if_neg (by simpa using hdash)]
      exact hslice
  unfold codeBody
  dsimp only
  rw [← hfront, ← hends]
  unfold codeEnd at hsafe ⊢
  by_cases hdash : t.mem (e - 1) = dash
  · have hpos : codeStart t off e < e := by
      rw [if_pos hdash] at hsafe
      rcases Nat.eq_zero_or_pos e with hzero | hpos
      · rw [hzero] at hdash hend
        rw [hend] at hdash
        exact absurd hdash (by decide)
      · omega
    rw [if_pos hdash, if_pos (beq_iff_eq.mpr hdash)]
    obtain ⟨k, rfl⟩ : ∃ k, e = k + 1 := ⟨e - 1, by omega⟩
    rw [Nat.add_sub_cancel, slice_concat _ (by omega), List.dropLast_concat]
  · rw [if_neg hdash, if_neg (by simpa using hdash)]

theorem tagType_ne {b : Byte} {type : ChunkType} (h : tagType b = some type) :
    type ≠ .eof ∧ type ≠ .text := by
  constructor <;>
  · rintro rfl
    unfold tagType at h
    repeat' split at h
    all_goals exact absurd h (by simp)

theorem templateCode_type (t : Source) (p : Parser) (e : ℕ) :
    (templateCode t p e).curChunk.type ≠ .text := by
  rw [templateCode_chunk]
  cases htype : tagType (t.mem (codeStart t p.off e)) with
  | none => exact ChunkType.noConfusion
  | some type => exact (tagType_ne htype).2

theorem not_fault {s e : ℕ} (h : s ≤ e) {long : Bool} : ¬(decide (e < s) && long) = true := by
  rw [decide_eq_false (not_lt.mpr h)]
  exact Bool.false_ne_true

/-- The piece for a closed tag. -/
theorem tag_piece {t : Source} {p : Parser} {e : ℕ} {body : List Byte} (hoff : 0 < p.off)
    (hbefore : t.mem (p.off - 1) = percent) (hle : p.off ≤ e) (hsize : e ≤ t.size)
    (hend : t.mem e = percent) (hslice : slice t.mem p.off e = body) (hbody : body ≠ [dash]) :
    pieceOf translate t (templateCode t p e).curChunk = .str (tagString translate body) := by
  have hsingle : ¬(e = p.off + 1 ∧ t.mem p.off = dash) := by
    rintro ⟨rfl, hdash⟩
    rw [slice_cons _ (by omega), slice_empty _ (le_refl _), hdash] at hslice
    exact hbody hslice.symm
  have hsafe := (templateCode_safe t p e).mp
    ((closed_safe_iff hoff hbefore hle hsize hend).mpr hsingle)
  have hcode := slice_code hle hbefore hend hslice ((Nat.le_add_right _ _).trans hsafe.1)
  rw [templateCode_chunk]
  unfold tagString
  rw [← hcode]
  set s := codeStart t p.off e
  set e' := codeEnd t e
  obtain ⟨hse, _⟩ := hsafe
  rcases Nat.eq_or_lt_of_le ((Nat.le_add_right _ _).trans hse) with heq | hlt
  · have hnone : tagType (t.mem s) = none := by
      by_contra htype
      rw [if_pos (Option.isSome_iff_ne_none.mpr htype)] at hse
      omega
    rw [hnone, slice_empty _ heq.ge]
    unfold pieceOf
    rw [if_pos heq]
    rfl
  · rw [slice_cons _ hlt]
    dsimp only
    cases htype : tagType (t.mem s) with
    | none =>
      dsimp only
      unfold pieceOf
      rw [if_neg (show s ≠ e' by omega), if_neg (not_fault (show s ≤ e' from hlt.le)),
        ← slice_cons _ hlt]
    | some type =>
      dsimp only
      unfold pieceOf
      by_cases heq : s + 1 = e'
      · rw [if_pos heq, if_pos (slice_empty _ heq.ge), if_neg (tagType_ne htype).1]
      · have hne : slice t.mem (s + 1) e' ≠ [] := by
          rw [slice_cons _ (show s + 1 < e' by omega)]
          exact List.cons_ne_nil _ _
        rw [if_neg (show s + 1 ≠ e' from heq), if_neg (not_fault (show s + 1 ≤ e' from hlt)),
          if_neg hne]

/-- A tag of a single dash. -/
theorem dash_piece {t : Source} {p : Parser} (hend : t.mem (p.off + 1) = percent)
    (hdash : t.mem p.off = dash) :
    pieceOf translate t (templateCode t p (p.off + 1)).curChunk = .fault := by
  have hstart : codeStart t p.off (p.off + 1) = p.off + 1 := by
    unfold codeStart
    rw [if_pos hdash, Nat.add_sub_cancel_left]
    unfold skip
    rw [hend]
    rfl
  have hcodeEnd : codeEnd t (p.off + 1) = p.off := by
    unfold codeEnd
    rw [Nat.add_sub_cancel, if_pos hdash]
  rw [templateCode_chunk, hstart, hcodeEnd, hend]
  show pieceOf translate t ⟨p.off + 1, p.off, .code, p.line⟩ = .fault
  unfold pieceOf
  rw [if_neg (Nat.succ_ne_self p.off), if_pos]
  simp [ChunkType.usesLength]

/-- A call that finds the next tag. -/
theorem reader_open {t : Source} {p : Parser} {i : ℕ} (hin : p.inExpr = false)
    (hfind : strfind t.mem p.off (t.size - p.off) openTag = some i) :
    let r := templateReader translate t p
    r.1 = pieceOf translate t (trimChunk t { p with prvChunk := p.curChunk }) ∧
      r.2.off = p.off + i + 2 ∧ r.2.inExpr = true ∧ r.2.stripBefore = p.stripBefore ∧
      r.2.stripAfter = p.stripAfter ∧ r.2.curChunk = (templateText t p (p.off + i)).curChunk := by
  unfold templateReader
  dsimp only
  rw [if_neg (by simp [hin]), hfind]
  dsimp only
  set q := { templateText t { p with prvChunk := p.curChunk } (p.off + i) with
    off := p.off + i + 2, inExpr := true } with hq
  obtain ⟨hoff, hexpr, hbefore, hafter, hcur, _⟩ := format_frame translate t q
  have hframe : q.stripBefore = p.stripBefore ∧ q.stripAfter = p.stripAfter ∧
      q.prvChunk = p.curChunk ∧ q.curChunk = (templateText t p (p.off + i)).curChunk := by
    rw [hq]
    unfold templateText
    split <;> exact ⟨rfl, rfl, rfl, rfl⟩
  refine ⟨?_, hoff, hexpr, hbefore.trans hframe.1, hafter.trans hframe.2.1,
    hcur.trans hframe.2.2.2⟩
  rw [format_piece]
  unfold trimChunk
  rw [hframe.1, hframe.2.2.1]

/-- A call that finds no tag. -/
theorem reader_last {t : Source} {p : Parser} (hin : p.inExpr = false)
    (hfind : strfind t.mem p.off (t.size - p.off) openTag = none) :
    let r := templateReader translate t p
    r.1 = pieceOf translate t (trimChunk t { p with prvChunk := p.curChunk }) ∧
      r.2.off = t.size ∧ r.2.inExpr = false ∧ r.2.stripBefore = p.stripBefore ∧
      r.2.curChunk = (templateText t p t.size).curChunk := by
  unfold templateReader
  dsimp only
  rw [if_neg (by simp [hin]), hfind]
  dsimp only
  set q := { templateText t { p with prvChunk := p.curChunk } t.size with off := t.size } with hq
  obtain ⟨hoff, hexpr, hbefore, _, hcur, _⟩ := format_frame translate t q
  have hframe : q.stripBefore = p.stripBefore ∧ q.inExpr = p.inExpr ∧
      q.prvChunk = p.curChunk ∧ q.curChunk = (templateText t p t.size).curChunk := by
    rw [hq]
    unfold templateText
    split <;> exact ⟨rfl, rfl, rfl, rfl⟩
  refine ⟨?_, hoff, (hexpr.trans hframe.2.1).trans hin, hbefore.trans hframe.1,
    hcur.trans hframe.2.2.2⟩
  rw [format_piece]
  unfold trimChunk
  rw [hframe.1, hframe.2.2.1]

/-- A call that finds the end of a tag: its flag trims the text in front. -/
theorem reader_close {t : Source} {p : Parser} {i : ℕ} (hin : p.inExpr = true)
    (hfind : strfind t.mem p.off (t.size - p.off) closeTag = some i) :
    let r := templateReader translate t p
    let before := t.mem p.off == dash
    r.1 = pieceOf translate t
        (trimChunk t { p with prvChunk := p.curChunk, stripBefore := before }) ∧
      r.2.off = p.off + i + 2 ∧ r.2.inExpr = false ∧ r.2.stripBefore = before ∧
      r.2.stripAfter = (t.mem (p.off + i - 1) == dash) ∧
      r.2.curChunk = (templateCode t p (p.off + i)).curChunk := by
  unfold templateReader
  dsimp only
  rw [if_pos hin, hfind]
  dsimp only
  set q := { templateCode t { p with prvChunk := p.curChunk } (p.off + i) with
    off := p.off + i + 2, inExpr := false } with hq
  obtain ⟨hoff, hexpr, hbefore, hafter, hcur, _⟩ := format_frame translate t q
  refine ⟨?_, hoff, hexpr, hbefore, hafter, hcur⟩
  rw [format_piece]
  rfl

theorem trimChunk_of_ne {t : Source} {p : Parser} (h : p.prvChunk.type ≠ .text) :
    trimChunk t p = p.prvChunk := by
  unfold trimChunk
  dsimp only
  rw [if_neg]
  simp [h]

/-- Outside of a tag a call formats the chunk of the call before. -/
theorem reader_pending (t : Source) {p : Parser} (hin : p.inExpr = false)
    (h : p.curChunk.type ≠ .text) :
    (templateReader translate t p).1 = pieceOf translate t p.curChunk := by
  have htrim : trimChunk t { p with prvChunk := p.curChunk } = p.curChunk := trimChunk_of_ne h
  cases hfind : strfind t.mem p.off (t.size - p.off) openTag with
  | none =>
    have hpiece := (reader_last translate hin hfind).1
    rwa [htrim] at hpiece
  | some i =>
    have hpiece := (reader_open translate hin hfind).1
    rwa [htrim] at hpiece

/-- The parser stands in front of a text; the chunk that is still to be formatted is no
text. -/
structure AtText (t : Source) (p : Parser) (front text : List Byte) (tags : List Tag) : Prop where
  off : p.off = front.length
  data : t.data = front ++ text ++ tags.flatMap Tag.bytes
  plain : ¬openTag <:+: text
  outside : p.inExpr = false
  pending : p.curChunk.type ≠ .text

theorem escapeByte_pos (b : Byte) : 0 < (escapeByte false b).length := by
  unfold escapeByte
  split
  · exact Nat.succ_pos _
  · split
    · exact Nat.succ_pos _
    · split <;> exact Nat.succ_pos _

theorem writeText_length (text : List Byte) :
    (writeText text).length = 9 + (luastrEscape false text).length := by
  unfold writeText
  rw [List.length_append, List.length_append]
  have hhead : (ascii "write(\"").length = 7 := by decide
  have htail : (ascii "\")").length = 2 := by decide
  omega

/-- A string for the beginning of a text is one for the text only if nothing is missing. -/
theorem textOut_front {text part out : List Byte} (hfront : part <+: text)
    (hpart : TextOut part out) : TextOut text out ↔ part = text := by
  refine ⟨fun htext => ?_, fun heq => heq ▸ hpart⟩
  obtain ⟨rest, rfl⟩ := hfront
  have hspace : (ascii " ").length = 1 := by decide
  rcases htext with htext | ⟨hnil, _⟩
  · have hlen := congrArg List.length htext
    rw [writeText_length] at hlen
    rcases hpart with hpart | ⟨_, hpart⟩
    · rw [hpart, writeText_length, luastrEscape, luastrEscape, List.flatMap_append,
        List.length_append] at hlen
      cases rest with
      | nil => rw [List.append_nil]
      | cons b rest =>
        have hpos := escapeByte_pos b
        rw [List.flatMap_cons, List.length_append] at hlen
        omega
    · rw [hpart, hspace] at hlen
      omega
  · rw [hnil, (List.append_eq_nil_iff.mp hnil).1]

/-- Trailing space is what the last byte shows. -/
theorem trim_true_eq (after : Bool) (text : List Byte) :
    trim true after text = trim false after text ↔
      ∀ b ∈ (trim false after text).getLast?, isSpace b = false := by
  show (trim false after text).rdropWhile isSpace = trim false after text ↔ _
  rw [List.rdropWhile_eq_self_iff]
  constructor
  · intro h b hb
    obtain ⟨hne, rfl⟩ := List.mem_getLast?_eq_getLast hb
    simpa using h hne
  · intro h hne
    have := h _ (List.getLast?_eq_getLast_of_ne_nil hne)
    simp [this]

theorem strfind_end {t : Source} {p : Parser} (h : p.off = t.size) (needle : List Byte) :
    strfind t.mem p.off (t.size - p.off) needle = none := by
  rw [h, Nat.sub_self]
  rfl

theorem templateText_end {t : Source} {p : Parser} (h : p.off = t.size) :
    (templateText t p t.size).curChunk = ⟨t.size, t.size, .eof, p.line⟩ := by
  unfold templateText
  rw [if_neg (by omega), h]

/-- The end has been produced and is formatted. -/
theorem reader_end {t : Source} {p : Parser} (hin : p.inExpr = false) {line : ℕ}
    (hcur : p.curChunk = ⟨t.size, t.size, .eof, line⟩) :
    (templateReader translate t p).1 = .eof := by
  rw [reader_pending translate t hin (by simp [hcur]), hcur]
  unfold pieceOf
  rw [if_pos rfl, if_pos rfl]

theorem AtText.slices {t : Source} {p : Parser} {front text : List Byte} {tags : List Tag}
    (h : AtText t p front text tags) :
    slice t.mem p.off (p.off + text.length) = text ∧
      slice t.mem p.off (p.off + (t.size - p.off)) = text ++ tags.flatMap Tag.bytes ∧
      p.off + text.length + (tags.flatMap Tag.bytes).length = t.size := by
  have hsize : t.size = front.length + text.length + (tags.flatMap Tag.bytes).length := by
    show t.data.length = _
    rw [h.data, List.length_append, List.length_append]
  refine ⟨?_, ?_, by rw [h.off, hsize]⟩
  · rw [h.off]
    exact slice_data h.data
  · rw [h.off]
    exact slice_rest (h.data.trans (List.append_assoc _ _ _))

/-- From the last text. -/
theorem reads_last {t : Source} {p : Parser} {front text : List Byte}
    (h : AtText t p front text []) {out : List Byte}
    (hout : pieceOf translate t p.curChunk = .str out) :
    ∃ q, templateReader translate t p = (.str out, q) ∧
      (Reads translate t q (Represents translate p.stripAfter text []) ↔
        Clean p.stripAfter p.stripBefore text []) := by
  obtain ⟨hslice, hrest, hsize⟩ := h.slices
  rw [List.flatMap_nil, List.append_nil] at hrest
  rw [List.flatMap_nil, List.length_nil, Nat.add_zero] at hsize
  obtain ⟨_, hoff, hin, hbefore, hcur⟩ :=
    reader_last translate h.outside (strfind_absent hrest h.plain)
  have hpiece := reader_pending translate t h.outside h.pending
  set q := (templateReader translate t p).2 with hq
  refine ⟨q, Prod.ext (hpiece.trans hout) rfl, ?_⟩
  by_cases hempty : text = []
  · have hend : p.off = t.size := by
      rw [← hsize, hempty]
      rfl
    rw [templateText_end hend] at hcur
    rw [reads_eof translate _ (Prod.ext (reader_end translate hin hcur) rfl)]
    refine ⟨fun _ _ b hb => ?_, fun _ => Or.inl ⟨hempty, rfl⟩⟩
    have hnil : trim false p.stripAfter text = [] := by
      rw [hempty]
      unfold trim
      cases p.stripAfter <;> rfl
    rw [hnil] at hb
    exact absurd hb (by simp)
  · have hlt : p.off < t.size := by
      have := List.length_pos_iff.mpr hempty
      omega
    obtain ⟨hpiece', hoff', hin', _, hcur'⟩ :=
      reader_last translate hin (strfind_end hoff openTag)
    obtain ⟨last, hlast, htext⟩ :=
      text_piece translate hlt hlt.le (hsize ▸ hslice) (show
        ({ q with prvChunk := q.curChunk } : Parser).prvChunk = _ from hcur)
    rw [templateText_end hoff] at hcur'
    set q' := (templateReader translate t q).2
    rw [reads_str translate _ (Prod.ext (hpiece'.trans hlast) rfl),
      reads_eof translate _ (Prod.ext (reader_end translate hin' hcur') rfl)]
    have hflag : trim ({ q with prvChunk := q.curChunk } : Parser).stripBefore p.stripAfter text =
        trim p.stripBefore p.stripAfter text := by
      rw [← hbefore]
    rw [hflag] at htext
    have hone : Represents translate p.stripAfter text [] [last] ↔
        TextOut (trim false p.stripAfter text) last := by
      constructor
      · rintro (⟨hnil, _⟩ | ⟨_, out', hout', heq⟩)
        · exact absurd hnil hempty
        · rw [(List.cons.inj heq).1]
          exact hout'
      · exact fun htext => Or.inr ⟨hempty, last, htext, rfl⟩
    rw [hone]
    cases hstrip : p.stripBefore with
    | false =>
      rw [hstrip] at htext
      exact ⟨fun _ hfalse => absurd hfalse (by simp), fun _ => htext⟩
    | true =>
      rw [hstrip] at htext
      have hfront : trim true p.stripAfter text <+: trim false p.stripAfter text :=
        List.rdropWhile_prefix isSpace _
      rw [textOut_front hfront htext, trim_true_eq]
      exact ⟨fun hspace _ => hspace, fun hclean => hclean rfl⟩

/-- Over a text and a tag, to the next text. -/
theorem reads_tag {t : Source} {p : Parser} {front text : List Byte} {tag : Tag}
    {tags : List Tag} (h : AtText t p front text (tag :: tags)) {out : List Byte}
    (hout : pieceOf translate t p.curChunk = .str out) :
    ∃ q q' str, templateReader translate t p = (.str out, q) ∧
      templateReader translate t q = (.str str, q') ∧
      TextOut (trim (startsDash tag.body) p.stripAfter text) str ∧
      AtText t q' (front ++ text ++ openTag ++ tag.body ++ closeTag) tag.text tags ∧
      q'.stripBefore = startsDash tag.body ∧ q'.stripAfter = endsDash tag.body ∧
      pieceOf translate t q'.curChunk =
        if tag.body = [dash] then .fault else .str (tagString translate tag.body) := by
  obtain ⟨hslice, hrest, hsize⟩ := h.slices
  have hdata := h.data
  have hbytes : (tag :: tags).flatMap Tag.bytes =
      openTag ++ tag.body ++ closeTag ++ tag.text ++ tags.flatMap Tag.bytes := by
    rw [List.flatMap_cons]
    rfl
  have hopenLen : openTag.length = 2 := rfl
  have hcloseLen : closeTag.length = 2 := rfl
  rw [hbytes] at hrest hsize hdata
  simp only [List.length_append, hopenLen, hcloseLen] at hsize
  -- the text
  have hopen := strfind_first (show (0x3c : Byte) ≠ percent by decide)
    (show _ = text ++ openTag ++ (tag.body ++ closeTag ++ tag.text ++ tags.flatMap Tag.bytes) by
      rw [hrest]; simp only [List.append_assoc]) h.plain
  obtain ⟨_, hoff, hin, _, hafter, hcur⟩ := reader_open translate h.outside hopen
  have hpiece := reader_pending translate t h.outside h.pending
  set q := (templateReader translate t p).2 with hq
  -- the tag
  have hfront : q.off = (front ++ text ++ openTag).length := by
    rw [hoff, h.off, List.length_append, List.length_append, hopenLen]
  have hbody : slice t.mem q.off (q.off + (t.size - q.off)) =
      tag.body ++ closeTag ++ (tag.text ++ tags.flatMap Tag.bytes) := by
    rw [hfront]
    refine slice_rest (hdata.trans ?_)
    simp only [List.append_assoc]
  have hclose := strfind_first (show percent ≠ (0x3e : Byte) by decide) hbody tag.bodyPlain
  obtain ⟨hpiece', hoff', hin', hbefore', hafter', hcur'⟩ := reader_close translate hin hclose
  have hbodySlice := (slice_split (hbody.trans (List.append_assoc _ _ _))).1
  have hopened : t.mem (q.off - 1) = percent := by
    rw [hoff]
    exact (strfind_openTag hopen).2.2
  have hclosed := (strfind_closeTag hclose).2
  obtain ⟨hstarts, hends⟩ := tag_flags hopened (Nat.le_add_right _ _) hclosed hbodySlice
  rw [hstarts] at hbefore' hpiece'
  rw [hends] at hafter'
  obtain ⟨str, hstr, htext⟩ :=
    text_piece translate (show p.off < t.size by omega) (Nat.le_add_right _ _) hslice
      (show ({ q with prvChunk := q.curChunk, stripBefore := startsDash tag.body } : Parser).prvChunk
        = _ from hcur)
  set q' := (templateReader translate t q).2 with hq'
  refine ⟨q, q', str, Prod.ext (hpiece.trans hout) rfl, Prod.ext (hpiece'.trans hstr) rfl, htext,
    ⟨?_, ?_, tag.textPlain, hin', ?_⟩, hbefore', hafter', ?_⟩
  · rw [hoff', hfront]
    simp only [List.length_append, hcloseLen]
  · rw [hdata]
    simp only [List.append_assoc]
  · rw [hcur']
    exact templateCode_type t q _
  · rw [hcur']
    have hpos : 0 < q.off := by omega
    by_cases hsingle : tag.body = [dash]
    · rw [if_pos hsingle]
      rw [hsingle] at hclosed hstarts ⊢
      exact dash_piece translate hclosed (beq_iff_eq.mp hstarts)
    · rw [if_neg hsingle]
      refine tag_piece translate hpos hopened (Nat.le_add_right _ _) ?_ hclosed hbodySlice hsingle
      omega

/-- From a text on: the strings stand for the page exactly when it is clean. -/
theorem reads_text {t : Source} (tags : List Tag) {p : Parser} {front text : List Byte}
    (h : AtText t p front text tags) {out : List Byte}
    (hout : pieceOf translate t p.curChunk = .str out) :
    ∃ q, templateReader translate t p = (.str out, q) ∧
      (Reads translate t q (Represents translate p.stripAfter text tags) ↔
        Clean p.stripAfter p.stripBefore text tags) := by
  induction tags generalizing p front text out with
  | nil => exact reads_last translate h hout
  | cons tag tags ih =>
    obtain ⟨q, q', str, hread, hread', htext, hnext, hbefore, hafter, hpiece⟩ :=
      reads_tag translate h hout
    refine ⟨q, hread, ?_⟩
    rw [reads_str translate _ hread']
    by_cases hsingle : tag.body = [dash]
    · rw [if_pos hsingle] at hpiece
      refine ⟨fun hreads => ?_, fun hclean => absurd hsingle hclean.1⟩
      have hfault := reader_pending translate t hnext.outside hnext.pending
      exact absurd hreads (reads_fault translate _ (Prod.ext (hfault.trans hpiece) rfl))
    · rw [if_neg hsingle] at hpiece
      obtain ⟨q'', hread'', hiff⟩ := ih hnext hpiece
      rw [reads_str translate _ hread'']
      rw [hbefore, hafter] at hiff
      have hcons : (fun outs => Represents translate p.stripAfter text (tag :: tags)
          (str :: tagString translate tag.body :: outs)) =
          Represents translate (endsDash tag.body) tag.text tags := by
        funext outs
        refine propext ⟨?_, fun hrest => ⟨str, outs, htext, hrest, rfl⟩⟩
        rintro ⟨out', rest, _, hrest, heq⟩
        rw [(List.cons.inj (List.cons.inj heq).2).2]
        exact hrest
      rw [hcons, hiff]
      exact ⟨fun hclean => ⟨hsingle, hclean⟩, fun hclean => hclean.2⟩

theorem reads_page (page : Page) :
    (Reads translate page.source templateOpen fun outs =>
      ∃ rest, outs = ascii " " :: rest ∧ Represents translate false page.text page.tags rest) ↔
      Clean false false page.text page.tags := by
  have hstart : AtText page.source templateOpen [] page.text page.tags :=
    ⟨rfl, rfl, page.textPlain, rfl, ChunkType.noConfusion⟩
  obtain ⟨q, hread, hiff⟩ := reads_text translate page.tags hstart rfl
  rw [reads_str translate _ hread]
  have hcons : (fun outs => ∃ rest, ascii " " :: outs = ascii " " :: rest ∧
      Represents translate false page.text page.tags rest) =
      Represents translate false page.text page.tags := by
    funext outs
    refine propext ⟨?_, fun h => ⟨outs, rfl, h⟩⟩
    rintro ⟨rest, heq, h⟩
    rw [(List.cons.inj heq).2]
    exact h
  rw [hcons]
  exact hiff

/-- The reader ends, and its strings are the texts without exactly the space that the
tags ask for, and the tags. -/
theorem template_reads_texts (page : Page) :
    (∃ n rest, readAll translate page.source n templateOpen = some (ascii " " :: rest) ∧
      Represents translate false page.text page.tags rest) ↔
      Clean false false page.text page.tags := by
  rw [← reads_page translate page]
  constructor
  · rintro ⟨n, rest, hread, h⟩
    exact ⟨n, _, hread, rest, rfl, h⟩
  · rintro ⟨n, outs, hread, rest, rfl, h⟩
    exact ⟨n, rest, hread, h⟩

end

/-- A tag with a dash in front of a last text with trailing space. -/
def trailingPage : Page where
  text := []
  tags := [⟨ascii "- x ", ascii "foo  ", by decide, by decide⟩]
  textPlain := by decide
  past := fun _ => 0
  small := by decide

/-- The trailing space of the last text is lost, though no tag follows. -/
theorem trailing_space_lost :
    let read := fun n => readAll (fun _ => none) trailingPage.source n templateOpen
    read 6 = some [ascii " ", ascii " ", ascii "x  ", ascii "write(\"foo\")"] ∧
      ¬∃ n rest, read n = some (ascii " " :: rest) ∧
        Represents (fun _ => none) false trailingPage.text trailingPage.tags rest := by
  refine ⟨by decide +kernel, ?_⟩
  rintro ⟨n, rest, hread, h⟩
  have hclean := (reads_page (fun _ => none) trailingPage).mp ⟨n, _, hread, rest, rfl, h⟩
  exact absurd (hclean.2 rfl 0x20 (by decide)) (by decide)

end Iot7688.Template
