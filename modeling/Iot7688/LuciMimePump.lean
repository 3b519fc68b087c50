import Iot7688.LuciMimeRead

/-!
Whole runs of the decoder on the text of a form. The sink hands over the chunk it has held
back when there is no delimiter in it and the next one, so a delimiter is missed exactly when
it begins in the chunk held back and ends behind the next one. Otherwise every part comes out
as it is read; then a part is missing or the last one has too much text.
-/
namespace Iot7688.LuciMime

open Lib
open LuciHttp (Str Failure)

/-- CONTENT_LENGTH allows for this length. -/
def Fits (contentLength : Option ℕ) (len : ℕ) : Prop := ∀ n ∈ contentLength, len ≤ n + 2

theorem Fits.mono {contentLength : Option ℕ} {m n : ℕ} (h : Fits contentLength n) (hle : m ≤ n) :
    Fits contentLength m := fun k hk => hle.trans (h k hk)

variable {f : Form} {env : Env} {lossy : Bool} {s s' : Sink} {actual rest : List Part} {p : Part}

theorem Cursor.congr {left : Str} {m : ℕ} (h : Cursor f lossy s left m)
    (hinhdr : s'.inhdr = s.inhdr) (hfield : s'.field = s.field) (hstore : s'.store = s.store)
    (hparams : s'.params = s.params) (hcalls : s'.calls = s.calls) :
    Cursor f lossy s' left m := by
  cases h with
  | header hrest hacc htrue hstored hnone hleft =>
    exact .header hrest hacc (hinhdr.trans htrue) (hstored.congr hparams hcalls)
      (hfield.trans hnone) hleft
  | content hrest hacc hfalse hopen hy =>
    exact .content hrest hacc (hinhdr.trans hfalse) (hopen.congr hstore hfield hparams hcalls) hy
  | finish hacc htrue hstored hnone =>
    exact .finish hacc (hinhdr.trans htrue) (hstored.congr hparams hcalls) (hfield.trans hnone)

/-- The sink between two chunks: what it holds back is shorter than what it waits for. -/
def Ready (f : Form) (lossy : Bool) (s : Sink) (more : Str) : Prop :=
  ∃ held m, s.lchunk = some held ∧ Cursor f lossy s (held ++ more) m ∧ held.length < m

/-- The closing delimiter has been missed, so the last part is never completed. -/
def TooLong (f : Form) (actual : List Part) (p : Part) (text : Str) : Prop :=
  actual.length + 1 < f.parts.length ∨
    ∃ content, f.parts.map Part.read = actual ++ [{ p with content := content }] ∧
      content.length < text.length

def Lost (f : Form) (s : Sink) (more : Str) : Prop :=
  ∃ held actual p text, s.lchunk = some held ∧ s.inhdr = false ∧ Open actual p text s ∧
    TooLong f actual p text ∧ findSub (delimiter f.boundary) (held ++ more) = none ∧
      findSub (closing f.boundary) (held ++ more) = none

/-- A delimiter begins in front of the chunk and ends behind it. -/
def StraddledAt (f : Form) (chunk more : Str) : Prop :=
  ∃ rest, rest <:+ f.parts ∧ (chunk ++ more).length < (following f.boundary rest).length ∧
    (following f.boundary rest).length < (delimiterOf f.boundary rest).length + more.length

theorem behind_length (b : Str) (p : Part) (rest : List Part) :
    (behind b (p :: rest)).length =
      p.header.length + p.content.length + (following b rest).length := by
  rw [behind, List.length_append, List.length_append]

theorem following_length (b : Str) (rest : List Part) :
    (following b rest).length = (delimiterOf b rest).length + (behind b rest).length := by
  rw [following_eq, List.length_append]

/-- The text from a later delimiter on. -/
theorem following_length_lt (b : Str) {rest rest' : List Part} (h : rest' <:+ rest)
    (hne : rest' ≠ rest) :
    (delimiterOf b rest).length + (following b rest').length < (following b rest).length := by
  induction rest with
  | nil => exact absurd (List.suffix_nil.mp h) hne
  | cons p rest ih =>
    have hheader := crlf_length_lt_header p
    rw [following_length b (p :: rest), behind_length]
    rcases List.suffix_cons_iff.mp h with heq | h
    · exact absurd heq hne
    · by_cases heq : rest' = rest
      · subst heq
        omega
      · have := ih h heq
        omega

/-- The text from an earlier delimiter on. -/
theorem following_length_ge (b : Str) {rest rest' : List Part} (h : (p :: rest) <:+ rest') :
    (delimiterOf b rest').length + (behind b (p :: rest)).length ≤ (following b rest').length := by
  by_cases heq : p :: rest = rest'
  · rw [← heq, following_length]
  · have hlt := following_length_lt b h heq
    rw [following_length b (p :: rest)] at hlt
    omega

/-- Within a header no delimiter has begun. -/
theorem not_straddled_header {left held chunk more : Str} {headers : List (Str × Str)}
    (hrest : (p :: rest) <:+ f.parts) (hleft : HeaderAt p left headers)
    (hdata : held ++ (chunk ++ more) = left ++ (p.content ++ following f.boundary rest))
    (hlt : held.length < left.length) : ¬StraddledAt f chunk more := by
  rintro ⟨rest', hrest', hbegin, hend⟩
  have hlen := congrArg List.length hdata
  simp only [List.length_append] at hlen hbegin
  have hheader : left.length ≤ p.header.length := by
    rcases hleft with ⟨rfl, _⟩ | ⟨rfl, _⟩
    · exact Nat.le_refl _
    · exact (crlf_length_lt_header p).le
  rcases List.suffix_or_suffix_of_suffix hrest' hrest with h | h
  · rcases List.suffix_cons_iff.mp h with rfl | h
    · rw [following_length, behind_length] at hend
      omega
    · by_cases heq : rest' = rest
      · subst heq
        omega
      · have := following_length_lt f.boundary h heq
        omega
  · have hge := following_length_ge f.boundary h
    rw [behind_length] at hge
    omega

/-- The last of the parts that are accounted for stands in front of the rest. -/
theorem Account.last {parts : List Part} {q : Part} (hrest : rest <:+ parts)
    (h : Account parts (actual ++ [q]) rest false) :
    ∃ p, (p :: rest) <:+ parts ∧ p.read = q := by
  obtain ⟨front, rfl⟩ := hrest
  rw [Account, List.map_append] at h
  obtain ⟨init, last, rfl, _, hlast⟩ := List.map_eq_append_iff.mp (List.append_cancel_right h)
  obtain ⟨p, rfl, hp⟩ := List.map_eq_singleton_iff.mp hlast
  exact ⟨p, ⟨init, by simp⟩, hp⟩

/-- The delimiter behind the content has not begun, or it ends in the chunk. -/
theorem not_straddled_content {text y held chunk more : Str} (hrest : rest <:+ f.parts)
    (hacc : Account f.parts (actual ++ [{ p with content := text ++ y }]) rest false)
    (hdata : held ++ (chunk ++ more) = y ++ following f.boundary rest)
    (hlt : held.length < (y ++ delimiterOf f.boundary rest).length)
    (hno : held.length ≤ y.length ∨
      (y ++ delimiterOf f.boundary rest).length ≤ (held ++ chunk).length) :
    ¬StraddledAt f chunk more := by
  rintro ⟨rest', hrest', hbegin, hend⟩
  obtain ⟨q, hq, hread⟩ := hacc.last hrest
  have hcontent : q.content.length = (text ++ y).length :=
    congrArg List.length (congrArg Part.content hread)
  have hlen := congrArg List.length hdata
  simp only [List.length_append] at hlen hbegin hlt hno hcontent
  rcases List.suffix_or_suffix_of_suffix hrest' hq with h | h
  · rcases List.suffix_cons_iff.mp h with rfl | h
    · rw [following_length, behind_length] at hend
      omega
    · by_cases heq : rest' = rest
      · subst heq
        omega
      · have := following_length_lt f.boundary h heq
        omega
  · have hge := following_length_ge f.boundary h
    rw [behind_length] at hge
    omega

/-- The delimiter behind the content begins in the text held back. -/
theorem straddled_content {y held chunk more : Str} (hrest : rest <:+ f.parts)
    (hdata : held ++ (chunk ++ more) = y ++ following f.boundary rest)
    (hbegin : y.length < held.length)
    (hend : (held ++ chunk).length < (y ++ delimiterOf f.boundary rest).length) :
    StraddledAt f chunk more := by
  have hlen := congrArg List.length hdata
  simp only [List.length_append] at hlen hend
  refine ⟨rest, hrest, ?_, ?_⟩
  · rw [List.length_append]
    omega
  · omega

theorem not_straddled_finish : ¬StraddledAt f [] [] := by
  rintro ⟨rest, _, _, hend⟩
  rw [following_length, List.length_nil] at hend
  omega

theorem snk_of_fits {boundary : Str} {contentLength : Option ℕ} {chunk : Option Str} {held : Str}
    (hfits : Fits contentLength (s.tlen + (chunk.getD []).length)) (hheld : s.lchunk = some held) :
    snk env boundary contentLength s chunk =
      match scan env boundary { s with tlen := s.tlen + (chunk.getD []).length } false
          (held ++ chunk.getD []) with
      | .error e => .error e
      | .ok (true, data, s) => .ok { s with lchunk := some data }
      | .ok (false, data, s) =>
          if s.inhdr then
            (parseHeaders env s data).map fun p =>
              { p.2.2 with lchunk := some p.1, inhdr := !p.2.1 }
          else (runStore s held false).map fun s => { s with lchunk := chunk } := by
  have hlength : ¬(contentLength.any fun n => s.tlen + (chunk.getD []).length > n + 2) = true := by
    cases contentLength with
    | none => exact Bool.false_ne_true
    | some n => simpa using hfits n rfl
  unfold snk
  refine (if_neg hlength).trans ?_
  obtain ⟨tlen, inhdr, field, store, lchunk, params, calls, writes⟩ := s
  dsimp only at hheld
  subst hheld
  rfl

/-- A delimiter in the window: the rest of the window is held back. -/
theorem snk_found {boundary : Str} {contentLength : Option ℕ} {chunk : Option Str} {held data : Str}
    (hfits : Fits contentLength (s.tlen + (chunk.getD []).length)) (hheld : s.lchunk = some held)
    (hscan : scan env boundary { s with tlen := s.tlen + (chunk.getD []).length } false
      (held ++ chunk.getD []) = .ok (true, data, s')) :
    snk env boundary contentLength s chunk = .ok { s' with lchunk := some data } := by
  rw [snk_of_fits hfits hheld, hscan]

/-- No delimiter, within a header: the window is parsed. -/
theorem snk_header {boundary : Str} {contentLength : Option ℕ} {chunk : Option Str} {held : Str}
    (hfits : Fits contentLength (s.tlen + (chunk.getD []).length)) (hheld : s.lchunk = some held)
    (hnone : findDelimiter boundary (held ++ chunk.getD []) = none) (hinhdr : s.inhdr = true) :
    snk env boundary contentLength s chunk =
      (parseHeaders env { s with tlen := s.tlen + (chunk.getD []).length }
        (held ++ chunk.getD [])).map fun p =>
          { p.2.2 with lchunk := some p.1, inhdr := !p.2.1 } := by
  rw [snk_of_fits hfits hheld, scan_none hnone]
  dsimp only
  rw [if_pos hinhdr]

/-- No delimiter, within a content: what was held back is stored. -/
theorem snk_content {boundary : Str} {contentLength : Option ℕ} {chunk : Option Str} {held : Str}
    (hfits : Fits contentLength (s.tlen + (chunk.getD []).length)) (hheld : s.lchunk = some held)
    (hnone : findDelimiter boundary (held ++ chunk.getD []) = none) (hinhdr : s.inhdr = false) :
    snk env boundary contentLength s chunk =
      (runStore { s with tlen := s.tlen + (chunk.getD []).length } held false).map fun s =>
        { s with lchunk := chunk } := by
  have hno : ¬s.inhdr = true := by rw [hinhdr]; exact Bool.false_ne_true
  rw [snk_of_fits hfits hheld, scan_none hnone]
  dsimp only
  rw [if_neg hno]

theorem Account.length_le {parts todo : List Part} (h : Account parts actual todo lossy) :
    actual.length + todo.length ≤ parts.length := by
  cases lossy with
  | false =>
    have hlen := congrArg List.length h
    simp only [List.length_append, List.length_map] at hlen
    exact hlen.ge
  | true => exact h.le

theorem findDelimiter_none_iff {b data : Str} : findDelimiter b data = none ↔
    findSub (delimiter b) data = none ∧ findSub (closing b) data = none := by
  unfold findDelimiter
  rw [Option.or_eq_none_iff]

theorem findDelimiter_none_of_suffix {b data data' : Str} (h : findDelimiter b data = none)
    (hsuffix : data' <:+ data) : findDelimiter b data' = none := by
  rw [findDelimiter_none_iff] at h ⊢
  exact ⟨findSub_none_of_suffix h.1 hsuffix, findSub_none_of_suffix h.2 hsuffix⟩

/-- The text behind the front of a missed delimiter goes on to the next one. -/
theorem not_separator_missed (hp : p ∈ f.parts) {front back : Str} (hfront : front ≠ [])
    (h : front ++ back = delimiter f.boundary) :
    ¬separator f.boundary <:+: back ++ (p.header ++ p.content) := by
  intro hwithin
  obtain ⟨c, cs, rfl⟩ := List.exists_cons_of_ne_nil hfront
  rw [delimiter_eq, separator_cons, List.cons_append, List.cons_append, List.cons.injEq] at h
  have hback : back <:+ (lf :: dashes ++ f.boundary) ++ crlf := ⟨cs, h.2⟩
  have hall : back ++ (p.header ++ p.content) <:+
      (lf :: dashes ++ f.boundary) ++ (crlf ++ (p.header ++ p.content)) := by
    obtain ⟨u, hu⟩ := hback
    exact ⟨u, by rw [← List.append_assoc, hu, List.append_assoc]⟩
  have hcrlf := separator_infix_skip (fun hmem => no_cr_behind f.boundary_line cr hmem rfl)
    (hwithin.trans hall.isInfix)
  have hlf : cr ∉ [lf] := by decide
  rcases List.infix_cons_iff.mp hcrlf with hpre | hrest
  · rw [separator_cons] at hpre
    have hthird := (List.cons_prefix_cons.mp (List.cons_prefix_cons.mp hpre).2).2
    exact absurd (List.cons_prefix_cons.mp hthird).1 (by decide)
  · exact not_separator_header hp (Or.inl ⟨rfl, rfl⟩) (separator_infix_skip hlf hrest)

/-- The next chunk, when a delimiter is missed there. -/
def Missed (f : Form) (s' : Sink) (more : Str) : Prop := Ready f true s' more ∨ Lost f s' more

theorem step_missed {text y held chunk more : Str} (hrest : rest <:+ f.parts)
    (hacc : Account f.parts (actual ++ [{ p with content := text ++ y }]) rest lossy)
    (hheld : s'.lchunk = some chunk) (hinhdr : s'.inhdr = false)
    (hopen : Open actual p (text ++ held) s')
    (hdata : held ++ (chunk ++ more) = y ++ following f.boundary rest)
    (hbegin : y.length < held.length)
    (hend : (held ++ chunk).length < (y ++ delimiterOf f.boundary rest).length) :
    Missed f s' more := by
  -- the front of the delimiter is stored with the content
  obtain ⟨front, rfl⟩ : y <+: held := List.prefix_of_prefix_length_le
    (hdata ▸ List.prefix_append _ _) (List.prefix_append held (chunk ++ more)) hbegin.le
  have hfront : front ≠ [] := by
    rintro rfl
    rw [List.append_nil] at hbegin
    exact lt_irrefl _ hbegin
  rw [List.append_assoc] at hdata
  replace hdata := List.append_cancel_left hdata
  rw [following_eq] at hdata
  obtain ⟨back, hback⟩ : front <+: delimiterOf f.boundary rest := by
    refine List.prefix_of_prefix_length_le (hdata ▸ List.prefix_append _ _)
      (List.prefix_append _ (behind f.boundary rest)) ?_
    simp only [List.length_append] at hend
    omega
  have hmore : chunk ++ more = back ++ behind f.boundary rest := by
    rw [← hback, List.append_assoc] at hdata
    exact List.append_cancel_left hdata
  have hchunk : chunk.length < back.length := by
    rw [← hback] at hend
    simp only [List.length_append] at hend
    omega
  cases rest with
  | nil =>
    right
    rw [behind, List.append_nil] at hmore
    have hsuffix : back <:+ closing f.boundary := ⟨front, hback⟩
    refine ⟨chunk, actual, p, text ++ (y ++ front), hheld, hinhdr, hopen, ?_, ?_, ?_⟩
    · cases lossy with
      | false =>
        refine Or.inr ⟨text ++ y, ?_, ?_⟩
        · rw [Account, List.map_nil, List.append_nil] at hacc
          exact hacc
        · simp only [List.length_append] at hbegin ⊢
          omega
      | true =>
        left
        rw [Account, List.length_append, List.length_singleton] at hacc
        exact hacc
    · rw [hmore]
      exact findSub_none_of_suffix (findSub_delimiter_closing f.boundary_line) hsuffix
    · rw [hmore]
      refine findSub_of_length_lt ?_
      have hpos := List.length_pos_iff.mpr hfront
      have hlen := congrArg List.length hback
      rw [List.length_append] at hlen
      change back.length < (delimiterOf f.boundary []).length
      omega
  | cons q rest =>
    left
    have hq : q ∈ f.parts := hrest.subset (List.mem_cons_self ..)
    have hsuffix : rest <:+ f.parts := (List.suffix_cons q rest).trans hrest
    have hleft : chunk ++ more =
        (back ++ (q.header ++ q.content)) ++ following f.boundary rest := by
      rw [hmore, behind]
      simp only [List.append_assoc]
    refine ⟨chunk, (back ++ (q.header ++ q.content) ++ delimiterOf f.boundary rest).length,
      hheld, ?_, ?_⟩
    · rw [hleft]
      refine .content hsuffix ?_ hinhdr hopen (not_separator_missed hq hfront hback)
      have hle := hacc.length_le
      simp only [List.length_append, List.length_cons] at hle
      rw [Account, List.length_append, List.length_singleton]
      omega
    · simp only [List.length_append]
      omega

/-- What a chunk does: the sink goes on, or it misses a delimiter. -/
def Stepped (f : Form) (lossy : Bool) (s' : Sink) (chunk more : Str) : Prop :=
  Ready f lossy s' more ∧ (lossy = false → ¬StraddledAt f chunk more) ∨
    StraddledAt f chunk more ∧ Missed f s' more

theorem step_content {contentLength : Option ℕ}
    {text y held chunk more : Str} (hrest : rest <:+ f.parts)
    (hacc : Account f.parts (actual ++ [{ p with content := text ++ y }]) rest lossy)
    (hinhdr : s.inhdr = false) (hopen : Open actual p text s)
    (hy : ¬separator f.boundary <:+: y) (hheld : s.lchunk = some held)
    (hdata : held ++ (chunk ++ more) = y ++ following f.boundary rest)
    (hlt : held.length < (y ++ delimiterOf f.boundary rest).length)
    (hnone : findDelimiter f.boundary (held ++ chunk) = none)
    (hfits : Fits contentLength (s.tlen + chunk.length)) :
    ∃ s', snk env f.boundary contentLength s (some chunk) = .ok s' ∧
      s'.tlen = s.tlen + chunk.length ∧ Stepped f lossy s' chunk more := by
  have hwindow : (held ++ chunk).length < (y ++ delimiterOf f.boundary rest).length := by
    by_contra hge
    obtain ⟨_, hfind, _⟩ := findDelimiter_window f.boundary_line hy
      (List.append_assoc held chunk more ▸ hdata) (Nat.le_of_not_lt hge)
    rw [hnone] at hfind
    cases hfind
  have hopen' : Open actual p text { s with tlen := s.tlen + chunk.length } :=
    hopen.congr rfl rfl rfl rfl
  obtain ⟨s₁, hs₁, hopen₁, hflags⟩ := hopen'.more held
  have hsnk : snk env f.boundary contentLength s (some chunk) =
      .ok { s₁ with lchunk := some chunk } := by
    rw [snk_content hfits hheld hnone hinhdr]
    exact congrArg (Except.map _) hs₁
  have hopen₂ : Open actual p (text ++ held) { s₁ with lchunk := some chunk } :=
    hopen₁.congr rfl rfl rfl rfl
  refine ⟨_, hsnk, hflags.2, ?_⟩
  rcases Nat.lt_or_ge y.length held.length with hbegin | hge
  · exact Or.inr ⟨straddled_content hrest hdata hbegin hwindow,
      step_missed hrest hacc rfl (hflags.1.trans hinhdr) hopen₂ hdata hbegin hwindow⟩
  · left
    obtain ⟨y', rfl⟩ : held <+: y := List.prefix_of_prefix_length_le
      (hdata ▸ List.prefix_append held (chunk ++ more)) (List.prefix_append _ _) hge
    refine ⟨⟨chunk, (y' ++ delimiterOf f.boundary rest).length, rfl, ?_, ?_⟩, ?_⟩
    · rw [List.append_assoc] at hdata
      rw [List.append_cancel_left hdata]
      rw [← List.append_assoc] at hacc
      exact .content hrest hacc (hflags.1.trans hinhdr) hopen₂ fun hwithin =>
        hy (hwithin.trans (List.suffix_append held y').isInfix)
    · simp only [List.length_append] at hwindow ⊢
      omega
    · rintro rfl
      exact not_straddled_content hrest hacc hdata hlt (Or.inl hge)

/-- A window in which the search finds a delimiter holds all of the next one. -/
theorem Cursor.not_straddled {held chunk more : Str} {m : ℕ}
    (h : Cursor f false s (held ++ (chunk ++ more)) m) (hlt : held.length < m)
    (hfound : findDelimiter f.boundary (held ++ chunk) ≠ none) : ¬StraddledAt f chunk more := by
  generalize hdata : held ++ (chunk ++ more) = left at h
  cases h with
  | header hrest _ _ _ _ hleft => exact not_straddled_header hrest hleft hdata hlt
  | content hrest hacc _ _ hy =>
    refine not_straddled_content hrest hacc hdata hlt (Or.inr ?_)
    by_contra hge
    rw [← List.append_assoc] at hdata
    exact hfound (findDelimiter_window_none f.boundary_line hy hdata (Nat.lt_of_not_le hge))
  | finish =>
    obtain ⟨_, hrest⟩ := List.append_eq_nil_iff.mp hdata
    obtain ⟨rfl, rfl⟩ := List.append_eq_nil_iff.mp hrest
    exact not_straddled_finish

theorem step_header (hcb : env.filecb = true) {contentLength : Option ℕ}
    {left held chunk more : Str} {headers : List (Str × Str)} (hrest : (p :: rest) <:+ f.parts)
    (hacc : Account f.parts actual (p :: rest) lossy) (hinhdr : s.inhdr = true)
    (hstored : Stored actual s) (hfield : s.field = ⟨headers, none, none⟩)
    (hleft : HeaderAt p left headers) (hheld : s.lchunk = some held)
    (hdata : held ++ (chunk ++ more) = left ++ (p.content ++ following f.boundary rest))
    (hlt : held.length < left.length)
    (hnone : findDelimiter f.boundary (held ++ chunk) = none)
    (hfits : Fits contentLength (s.tlen + chunk.length)) :
    ∃ s', snk env f.boundary contentLength s (some chunk) = .ok s' ∧
      s'.tlen = s.tlen + chunk.length ∧ Stepped f lossy s' chunk more := by
  have hstored' : Stored actual { s with tlen := s.tlen + chunk.length } := hstored.congr rfl rfl
  have hfield' : ({ s with tlen := s.tlen + chunk.length } : Sink).field = ⟨headers, none, none⟩ :=
    hfield
  have hdata' := hdata
  rw [← List.append_assoc] at hdata'
  obtain ⟨data', eof, s₁, left', m, hparse, hcursor, hmore, hwindow, htlen⟩ :=
    header_step hcb hrest hacc hstored' hfield' hleft hdata'
  have hsnk : snk env f.boundary contentLength s (some chunk) =
      .ok { s₁ with lchunk := some data', inhdr := !eof } := by
    rw [snk_header hfits hheld hnone hinhdr]
    exact congrArg (Except.map _) hparse
  refine ⟨_, hsnk, htlen, Or.inl ⟨⟨data', m, rfl, ?_, ?_⟩, ?_⟩⟩
  · rw [hmore]
    exact hcursor.congr rfl rfl rfl rfl rfl
  · cases eof with
    | false =>
      rw [if_neg Bool.false_ne_true] at hwindow
      exact hwindow
    | true =>
      rw [if_pos rfl] at hwindow
      exact hcursor.length_lt hmore (findDelimiter_none_of_suffix hnone hwindow) rfl
  · rintro rfl
    exact not_straddled_header hrest hleft hdata hlt

/-- Behind the closing delimiter there is nothing left to do. -/
theorem snk_finish {contentLength : Option ℕ} {chunk : Option Str} (hchunk : chunk.getD [] = [])
    (hinhdr : s.inhdr = true) (hfield : s.field = noField) (hheld : s.lchunk = some [])
    (hfits : Fits contentLength s.tlen) : snk env f.boundary contentLength s chunk = .ok s := by
  have hlines : headerLines [] noField.headers = ([], noField.headers) :=
    headerLines_of_none headerLine_nil _
  have hparse : parseHeaders env s [] = .ok ([], false, s) := by
    unfold parseHeaders
    dsimp only
    rw [hfield, hlines]
    dsimp only
    rw [if_neg (by decide)]
    congr 3
    rw [← hfield]
  have hlen : s.tlen + (chunk.getD []).length = s.tlen := by rw [hchunk]; rfl
  rw [snk_header (by rw [hlen]; exact hfits) hheld (by rw [hchunk]; rfl) hinhdr, hlen, hchunk]
  refine (congrArg (Except.map _) hparse).trans ?_
  change Except.ok { s with lchunk := some [], inhdr := true } = Except.ok s
  rw [← hheld, ← hinhdr]

/-- One chunk of the text. -/
theorem Ready.step (hcb : env.filecb = true) {contentLength : Option ℕ} {chunk more : Str}
    (h : Ready f lossy s (chunk ++ more)) (hfits : Fits contentLength (s.tlen + chunk.length)) :
    ∃ s', snk env f.boundary contentLength s (some chunk) = .ok s' ∧
      s'.tlen = s.tlen + chunk.length ∧ Stepped f lossy s' chunk more := by
  obtain ⟨held, m, hheld, hcursor, hlt⟩ := h
  have hcursor' : Cursor f lossy { s with tlen := s.tlen + chunk.length } (held ++ (chunk ++ more)) m :=
    hcursor.congr rfl rfl rfl rfl rfl
  obtain ⟨r, hr, hscanned⟩ :=
    scan_spec hcb hcursor' (List.append_assoc held chunk more) false
  rcases hscanned with ⟨_, hnone⟩ | ⟨hfound, htlen, m', hcursor₁, hlt'⟩
  · generalize hdata : held ++ (chunk ++ more) = left at hcursor
    cases hcursor with
    | header hrest hacc hinhdr hstored hfield hleft =>
      exact step_header hcb hrest hacc hinhdr hstored hfield hleft hheld hdata hlt hnone hfits
    | content hrest hacc hinhdr hopen hy =>
      exact step_content hrest hacc hinhdr hopen hy hheld hdata hlt hnone hfits
    | finish hacc hinhdr hstored hfield =>
      obtain ⟨rfl, hrest⟩ := List.append_eq_nil_iff.mp hdata
      obtain ⟨rfl, rfl⟩ := List.append_eq_nil_iff.mp hrest
      refine ⟨s, snk_finish rfl hinhdr hfield hheld hfits, rfl, Or.inl ⟨⟨[], 1, hheld, ?_, ?_⟩, ?_⟩⟩
      · exact .finish hacc hinhdr hstored hfield
      · exact Nat.zero_lt_one
      · exact fun _ => not_straddled_finish
  · obtain ⟨found, data, s₁⟩ := r
    dsimp only at hfound htlen hcursor₁ hlt'
    subst hfound
    refine ⟨_, snk_found hfits hheld hr, htlen, Or.inl ⟨⟨data, m', rfl, ?_, hlt'⟩, ?_⟩⟩
    · exact hcursor₁.congr rfl rfl rfl rfl rfl
    · rintro rfl
      refine hcursor.not_straddled hlt fun hnone => ?_
      have hsame := hr.symm.trans (scan_none hnone)
      exact absurd (congrArg Prod.fst (Except.ok.inj hsame)) Bool.noConfusion

/-- Every part of the form has been stored, or fewer parts when a delimiter was missed. -/
def Complete (f : Form) (lossy : Bool) (s : Sink) : Prop :=
  ∃ actual, Stored actual s ∧ Account f.parts actual [] lossy

def Broken (f : Form) (s : Sink) : Prop :=
  Complete f true s ∨ ∃ actual p text, Open actual p text s ∧ TooLong f actual p text

variable {contentLength : Option ℕ}

theorem TooLong.more {actual : List Part} {p : Part} {text : Str} (h : TooLong f actual p text)
    (held : Str) : TooLong f actual p (text ++ held) := by
  refine h.imp_right ?_
  rintro ⟨content, hparts, hlt⟩
  exact ⟨content, hparts, by rw [List.length_append]; omega⟩

/-- Behind a missed closing delimiter everything is content. -/
theorem Lost.step (env : Env) (chunk : Option Str) {more : Str}
    (h : Lost f s (chunk.getD [] ++ more))
    (hfits : Fits contentLength (s.tlen + (chunk.getD []).length)) :
    ∃ s', snk env f.boundary contentLength s chunk = .ok s' ∧
      s'.tlen = s.tlen + (chunk.getD []).length ∧ s'.lchunk = chunk ∧ s'.inhdr = false ∧
      ∃ actual p text, Open actual p text s' ∧ TooLong f actual p text := by
  obtain ⟨held, actual, p, text, hheld, hinhdr, hopen, hlong, hdelimiter, hclosing⟩ := h
  rw [← List.append_assoc] at hdelimiter hclosing
  have hnone : findDelimiter f.boundary (held ++ chunk.getD []) = none :=
    findDelimiter_none_iff.mpr
      ⟨findSub_none_of_append (delimiter_ne_nil _) hdelimiter,
        findSub_none_of_append (closing_ne_nil _) hclosing⟩
  have hopen' : Open actual p text { s with tlen := s.tlen + (chunk.getD []).length } :=
    hopen.congr rfl rfl rfl rfl
  obtain ⟨s₁, hs₁, hopen₁, hflags⟩ := hopen'.more held
  refine ⟨{ s₁ with lchunk := chunk }, ?_, hflags.2, rfl, hflags.1.trans hinhdr, actual, p,
    text ++ held, hopen₁.congr rfl rfl rfl rfl, hlong.more held⟩
  rw [snk_content hfits hheld hnone hinhdr]
  exact congrArg (Except.map _) hs₁

theorem Lost.next (env : Env) {chunk more : Str} (h : Lost f s (chunk ++ more))
    (hfits : Fits contentLength (s.tlen + chunk.length)) :
    ∃ s', snk env f.boundary contentLength s (some chunk) = .ok s' ∧
      s'.tlen = s.tlen + chunk.length ∧ Lost f s' more := by
  obtain ⟨s', hs', htlen, hheld, hinhdr, actual, p, text, hopen, hlong⟩ :=
    Lost.step env (some chunk) h hfits
  obtain ⟨held, _, _, _, _, _, _, _, hdelimiter, hclosing⟩ := h
  have hsuffix : chunk ++ more <:+ held ++ (chunk ++ more) := List.suffix_append _ _
  exact ⟨s', hs', htlen, chunk, actual, p, text, hheld, hinhdr, hopen, hlong,
    findSub_none_of_suffix hdelimiter hsuffix, findSub_none_of_suffix hclosing hsuffix⟩

/-- With no text left the sink stands behind the closing delimiter. -/
theorem Ready.finished (h : Ready f lossy s []) :
    s.inhdr = true ∧ s.field = noField ∧ s.lchunk = some [] ∧ Complete f lossy s := by
  obtain ⟨held, m, hheld, hcursor, hlt⟩ := h
  rw [List.append_nil] at hcursor
  cases hcursor with
  | header =>
    rw [List.length_append] at hlt
    omega
  | content =>
    simp only [List.length_append, following_length] at hlt
    omega
  | finish hacc hinhdr hstored hfield => exact ⟨hinhdr, hfield, hheld, _, hstored, hacc⟩

/-- The end of the source. -/
theorem Ready.end (env : Env) (h : Ready f lossy s []) (hfits : Fits contentLength s.tlen) :
    snk env f.boundary contentLength s none = .ok s ∧ Complete f lossy s := by
  obtain ⟨hinhdr, hfield, hheld, hcomplete⟩ := h.finished
  exact ⟨snk_finish rfl hinhdr hfield hheld hfits, hcomplete⟩

/-- A delimiter begins in front of one of the chunks and ends behind it. -/
def StraddledIn (f : Form) (chunks : List Str) : Prop :=
  ∃ before chunk after, chunks = before ++ chunk :: after ∧ StraddledAt f chunk after.flatten

theorem straddledIn_nil : ¬StraddledIn f [] := by
  rintro ⟨before, chunk, after, h, _⟩
  simp at h

theorem straddledIn_cons {chunk : Str} {chunks : List Str} :
    StraddledIn f (chunk :: chunks) ↔ StraddledAt f chunk chunks.flatten ∨ StraddledIn f chunks := by
  constructor
  · rintro ⟨before, chunk', after, h, hat⟩
    cases before with
    | nil =>
      rw [List.nil_append, List.cons.injEq] at h
      obtain ⟨rfl, rfl⟩ := h
      exact Or.inl hat
    | cons _ before =>
      rw [List.cons_append, List.cons.injEq] at h
      exact Or.inr ⟨before, chunk', after, h.2, hat⟩
  · rintro (hat | ⟨before, chunk', after, rfl, hat⟩)
    · exact ⟨[], chunk, chunks, rfl, hat⟩
    · exact ⟨chunk :: before, chunk', after, rfl, hat⟩

theorem pump_missed (hcb : env.filecb = true) (chunks : List Str) (h : Missed f s chunks.flatten)
    (hfits : Fits contentLength (s.tlen + chunks.flatten.length)) :
    ∃ s', pump env f.boundary contentLength chunks s = .ok s' ∧ Broken f s' := by
  induction chunks generalizing s with
  | nil =>
    rcases h with hready | hlost
    · obtain ⟨hend, hcomplete⟩ := hready.end env hfits
      exact ⟨s, hend, Or.inl hcomplete⟩
    · obtain ⟨s', hs', _, _, _, hopen⟩ := Lost.step env none hlost hfits
      exact ⟨s', hs', Or.inr hopen⟩
  | cons chunk chunks ih =>
    rw [List.flatten_cons] at h hfits
    have hfirst : Fits contentLength (s.tlen + chunk.length) :=
      hfits.mono (by rw [List.length_append]; omega)
    obtain ⟨s', hs', htlen, hmissed⟩ : ∃ s', snk env f.boundary contentLength s (some chunk) =
        .ok s' ∧ s'.tlen = s.tlen + chunk.length ∧ Missed f s' chunks.flatten := by
      rcases h with hready | hlost
      · obtain ⟨s', hs', htlen, hstep⟩ := hready.step hcb hfirst
        exact ⟨s', hs', htlen, hstep.elim (fun h => Or.inl h.1) (fun h => h.2)⟩
      · obtain ⟨s', hs', htlen, hnext⟩ := hlost.next env hfirst
        exact ⟨s', hs', htlen, Or.inr hnext⟩
    rw [pump, hs']
    rw [List.length_append, ← Nat.add_assoc, ← htlen] at hfits
    exact ih hmissed hfits

theorem pump_ready (hcb : env.filecb = true) (chunks : List Str)
    (h : Ready f false s chunks.flatten)
    (hfits : Fits contentLength (s.tlen + chunks.flatten.length)) :
    ∃ s', pump env f.boundary contentLength chunks s = .ok s' ∧
      (¬StraddledIn f chunks ∧ Complete f false s' ∨ StraddledIn f chunks ∧ Broken f s') := by
  induction chunks generalizing s with
  | nil =>
    obtain ⟨hend, hcomplete⟩ := h.end env hfits
    exact ⟨s, hend, Or.inl ⟨straddledIn_nil, hcomplete⟩⟩
  | cons chunk chunks ih =>
    rw [List.flatten_cons] at h hfits
    have hfirst : Fits contentLength (s.tlen + chunk.length) :=
      hfits.mono (by rw [List.length_append]; omega)
    obtain ⟨s', hs', htlen, hstep⟩ := h.step hcb hfirst
    rw [List.length_append, ← Nat.add_assoc, ← htlen] at hfits
    rw [pump, hs']
    dsimp only
    rcases hstep with ⟨hready, hnot⟩ | ⟨hat, hmissed⟩
    · obtain ⟨s'', hs'', hcases⟩ := ih hready hfits
      refine ⟨s'', hs'', hcases.imp (And.imp_left fun hno hin => ?_) (And.imp_left fun hin => ?_)⟩
      · exact (straddledIn_cons.mp hin).elim (hnot rfl) hno
      · exact straddledIn_cons.mpr (Or.inr hin)
    · obtain ⟨s'', hs'', hbroken⟩ := pump_missed hcb chunks hmissed hfits
      exact ⟨s'', hs'', Or.inr ⟨straddledIn_cons.mpr (Or.inl hat), hbroken⟩⟩

theorem following_ge (b : Str) (rest : List Part) :
    (delimiterOf b rest).length ≤ (following b rest).length := by
  rw [following_length]
  exact Nat.le_add_right _ _

/-- The first delimiter is in the window: the first part begins. -/
theorem snk_begin (hcb : env.filecb = true) (chunk : Option Str) {held more : Str}
    (hheld : s.lchunk = some held) (hinhdr : s.inhdr = false) (hstore : s.store = none)
    (hstored : Stored [] s) (hdata : held ++ chunk.getD [] ++ more = following f.boundary f.parts)
    (hlen : (delimiterOf f.boundary f.parts).length ≤ (held ++ chunk.getD []).length)
    (hfits : Fits contentLength (s.tlen + (chunk.getD []).length)) :
    ∃ s', snk env f.boundary contentLength s chunk = .ok s' ∧
      s'.tlen = s.tlen + (chunk.getD []).length ∧ Ready f false s' more := by
  have hnil : ¬separator f.boundary <:+: [] := fun h => List.cons_ne_nil _ _ (List.infix_nil.mp h)
  obtain ⟨data', hfind, hmore⟩ := findDelimiter_window f.boundary_line hnil hdata hlen
  let s₁ : Sink := { s with tlen := s.tlen + (chunk.getD []).length }
  have hclose : closePart env s₁ [] = .ok s₁ := by
    have hno : ¬s₁.inhdr = true := by
      change ¬s.inhdr = true
      rw [hinhdr]
      exact Bool.false_ne_true
    unfold closePart
    rw [if_neg hno, if_pos hstore]
  have hstored₁ : Stored [] s₁ := hstored.congr rfl rfl
  have hacc : Account f.parts [] f.parts false := rfl
  obtain ⟨r, hr, hscanned⟩ := scan_next hcb hfind hclose rfl hstored₁ (List.suffix_refl _) hacc
    hmore (fun data'' _ s' left m hcursor hleft => scan_spec hcb hcursor hleft true) false
  rcases hscanned with ⟨_, hnone⟩ | ⟨hfound, htlen, m, hcursor, hlt⟩
  · rw [hfind] at hnone
    cases hnone
  · obtain ⟨found, data, s₂⟩ := r
    dsimp only at hfound htlen hcursor hlt
    subst hfound
    exact ⟨_, snk_found hfits hheld hr, htlen, data, m, rfl, hcursor.congr rfl rfl rfl rfl rfl, hlt⟩

/-- "--", the boundary and the end of the line. -/
def delimiterLine (boundary : Str) : Str := dashes ++ boundary ++ crlf

def Sink.first (chunk : Str) : Sink :=
  { Sink.start (fun _ => none) with tlen := chunk.length, lchunk := some (crlf ++ chunk) }

theorem snk_first {boundary : Str} {chunk : Str} (hfits : Fits contentLength chunk.length) :
    snk env boundary contentLength (Sink.start fun _ => none) (some chunk) =
      .ok (Sink.first chunk) := by
  have hlength : ¬(contentLength.any fun n => 0 + chunk.length > n + 2) = true := by
    rw [Nat.zero_add]
    cases contentLength with
    | none => exact Bool.false_ne_true
    | some n => simpa using hfits n rfl
  unfold snk
  dsimp only [Sink.start, Option.getD_some]
  rw [if_neg hlength, Sink.first, Nat.zero_add]
  rfl

theorem stored_first (chunk : Str) : Stored [] (Sink.first chunk) := ⟨rfl, Delivered.nil⟩

theorem delimiterOf_length (b : Str) (rest : List Part) :
    crlf.length < (delimiterOf b rest).length ∧ (delimiterOf b rest).length ≤ b.length + 8 := by
  cases rest with
  | nil =>
    simp only [delimiterOf, closing, crlf, dashes, List.length_append, List.length_cons,
      List.length_nil]
    omega
  | cons p rest =>
    simp only [delimiterOf, delimiter, crlf, dashes, List.length_append, List.length_cons,
      List.length_nil]
    omega

/-- The decoder on a form, for chunks that are long enough. -/
theorem pump_form (hcb : env.filecb = true) {chunks : List Str}
    (hchunks : chunks.flatten = encodeForm f.boundary f.parts)
    (hlong : ∀ chunk ∈ chunks.dropLast, (delimiterLine f.boundary).length ≤ chunk.length)
    (hfits : Fits contentLength (encodeForm f.boundary f.parts).length) :
    ∃ s, pump env f.boundary contentLength chunks (Sink.start fun _ => none) = .ok s ∧
      (¬StraddledIn f (chunks.drop 2) ∧ Complete f false s ∨
        StraddledIn f (chunks.drop 2) ∧ Broken f s) := by
  have htext := crlf_encodeForm f.boundary f.parts
  have hge := following_ge f.boundary f.parts
  obtain ⟨hshort, hle⟩ := delimiterOf_length f.boundary f.parts
  match chunks with
  | [] =>
    rw [← hchunks, List.flatten_nil, List.append_nil] at htext
    rw [← htext] at hge
    exact absurd hshort (Nat.not_lt.mpr hge)
  | [chunk] =>
    obtain rfl : chunk = encodeForm f.boundary f.parts := by
      rw [← hchunks, List.flatten_cons, List.flatten_nil, List.append_nil]
    have hfits' : Fits contentLength ((Sink.first (encodeForm f.boundary f.parts)).tlen + 0) := hfits
    have hdata : crlf ++ encodeForm f.boundary f.parts ++ (none : Option Str).getD [] ++ [] =
        following f.boundary f.parts := by
      rw [← htext]
      simp
    have hwindow : (delimiterOf f.boundary f.parts).length ≤
        (crlf ++ encodeForm f.boundary f.parts ++ (none : Option Str).getD []).length := by
      rw [List.append_nil] at hdata
      rw [hdata]
      exact hge
    obtain ⟨s, hs, _, hready⟩ := snk_begin hcb none rfl rfl rfl (stored_first _) hdata hwindow
      hfits'
    refine ⟨s, ?_, Or.inl ⟨straddledIn_nil, hready.finished.2.2.2⟩⟩
    rw [pump, snk_first hfits]
    exact hs
  | chunk :: next :: more =>
    have hdata : crlf ++ chunk ++ next ++ more.flatten = following f.boundary f.parts := by
      rw [← htext, ← hchunks]
      simp
    have hlen : (encodeForm f.boundary f.parts).length =
        chunk.length + next.length + more.flatten.length := by
      rw [← hchunks]
      simp [Nat.add_assoc]
    have hwindow : (delimiterOf f.boundary f.parts).length ≤ (crlf ++ chunk ++ next).length := by
      cases more with
      | nil =>
        rw [List.flatten_nil, List.append_nil] at hdata
        rw [hdata]
        exact hge
      | cons third more =>
        have hfirst := hlong chunk (by simp)
        have hsecond := hlong next (by simp)
        have hline : (delimiterLine f.boundary).length = f.boundary.length + 4 := by
          simp [delimiterLine, dashes, crlf]
        have hcrlf : crlf.length = 2 := rfl
        rw [List.length_append, List.length_append]
        omega
    have hfits₁ : Fits contentLength chunk.length := hfits.mono (by omega)
    have hfits₂ : Fits contentLength ((Sink.first chunk).tlen + next.length) :=
      hfits.mono (by rw [hlen]; exact Nat.le_add_right _ _)
    obtain ⟨s₁, hs₁, htlen, hready⟩ := snk_begin hcb (some next) rfl rfl rfl (stored_first _)
      hdata hwindow hfits₂
    have hfits₃ : Fits contentLength (s₁.tlen + more.flatten.length) := by
      rw [htlen]
      exact hlen ▸ hfits
    obtain ⟨s, hs, hcases⟩ := pump_ready hcb more hready hfits₃
    refine ⟨s, ?_, hcases⟩
    rw [pump, snk_first hfits₁]
    dsimp only
    rw [pump, hs₁]
    exact hs

end Iot7688.LuciMime
