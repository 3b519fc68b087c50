import Iot7688.Lib.Search
import Iot7688.LuciHttp

/-!
mimedecode_message_body of luci.http.protocol, and forms as multipart/form-data. The sink
holds one chunk back, because a delimiter may be cut in two. No line of a part's content
begins with the delimiter, so the first delimiter in what is left of the body is the one
behind the current part. A line of the headers is taken when its end is in the window.
-/
namespace Iot7688.LuciMime

open Lib
open LuciHttp (Str Failure)

def cr : Byte := 0x0d
def lf : Byte := 0x0a
def dash : Byte := 0x2d
def quote : Byte := 0x22
def blank : Byte := 0x20
def colon : Byte := 0x3a

def crlf : Str := [cr, lf]
def dashes : Str := [dash, dash]

/-- "Content-Disposition". -/
def contentDisposition : Str :=
  [0x43, 0x6f, 0x6e, 0x74, 0x65, 0x6e, 0x74, 0x2d, 0x44, 0x69, 0x73, 0x70, 0x6f, 0x73, 0x69,
    0x74, 0x69, 0x6f, 0x6e]

/-- "Content-Type". -/
def contentType : Str := [0x43, 0x6f, 0x6e, 0x74, 0x65, 0x6e, 0x74, 0x2d, 0x54, 0x79, 0x70, 0x65]

/-- "text/plain". -/
def textPlain : Str := [0x74, 0x65, 0x78, 0x74, 0x2f, 0x70, 0x6c, 0x61, 0x69, 0x6e]

/-- "form-data; ". -/
def formData : Str := [0x66, 0x6f, 0x72, 0x6d, 0x2d, 0x64, 0x61, 0x74, 0x61, 0x3b, 0x20]

/-- "name=" and a quotation mark. -/
def nameIs : Str := [0x6e, 0x61, 0x6d, 0x65, 0x3d, 0x22]

/-- "filename=" and a quotation mark. -/
def filenameIs : Str := [0x66, 0x69, 0x6c, 0x65, 0x6e, 0x61, 0x6d, 0x65, 0x3d, 0x22]

/-- "multipart/form-data; boundary=". -/
def multipart : Str :=
  [0x6d, 0x75, 0x6c, 0x74, 0x69, 0x70, 0x61, 0x72, 0x74, 0x2f, 0x66, 0x6f, 0x72, 0x6d, 0x2d,
    0x64, 0x61, 0x74, 0x61, 0x3b, 0x20, 0x62, 0x6f, 0x75, 0x6e, 0x64, 0x61, 0x72, 0x79, 0x3d]

/-- What separates the parts, and what ends the last one. -/
def delimiter (boundary : Str) : Str := crlf ++ dashes ++ boundary ++ crlf
def closing (boundary : Str) : Str := crlf ++ dashes ++ boundary ++ dashes ++ crlf

/-- The match of the pattern for CONTENT_TYPE. -/
def mimeBoundary (contentType : Str) : Option Str :=
  let boundary := contentType.drop multipart.length
  if multipart <+: contentType ∧ boundary ≠ [] then some boundary else none

/-- The value of a parameter: a string, or a table of strings, which has a file name when
a file made it. The last string of the table stands apart. -/
inductive Val
  | one (s : Str)
  | table (file : Option Str) (init : List Str) (last : Str)
deriving DecidableEq

abbrev Params := Str → Option Val

structure Field where
  headers : List (Str × Str)
  name : Option Str
  file : Option Str
deriving DecidableEq

/-- What a part of the body is handed to. -/
inductive Store
  | callback
  | file (name : Str)
  | param (name : Str)
deriving DecidableEq

/-- A call of the file callback. -/
structure Call where
  hdr : Field
  buf : Str
  eof : Bool
deriving DecidableEq

/-- The local variables of the decoder, the parameters and what has been handed over.
There is no field before the first delimiter. -/
structure Sink where
  tlen : ℕ
  inhdr : Bool
  field : Field
  store : Option Store
  lchunk : Option Str
  params : Params
  calls : List Call
  writes : List (Str × Str × Bool)

/-- Whether there is a file callback, and whether a temporary file can be made. -/
structure Env where
  filecb : Bool
  mkstemp : Str → Bool

def initval (tbl : Params) (key : Str) : Params :=
  Function.update tbl key <| some <|
    match tbl key with
    | none => .one []
    | some (.one s) => .table none [s] []
    | some (.table file init last) => .table file (init ++ [last]) []

/-- Inserting into a string is an error. -/
def initfileval (tbl : Params) (key filename : Str) : Except Failure Params :=
  match tbl key with
  | none => .ok (Function.update tbl key (some (.table (some filename) [] [])))
  | some (.one _) => .error .luaError
  | some (.table file init last) =>
      .ok (Function.update tbl key (some (.table file (init ++ [last]) [])))

def Val.extend (chunk : Str) : Val → Val
  | .one s => .one (s ++ chunk)
  | .table file init last => .table file init (last ++ chunk)

def appendval (tbl : Params) (key chunk : Str) : Params :=
  Function.update tbl key ((tbl key).map (Val.extend chunk))

def isUpper (c : Byte) : Bool := 0x41 ≤ c && c ≤ 0x5a

def isHeaderChar (c : Byte) : Bool :=
  isUpper c || (0x61 ≤ c && c ≤ 0x7a) || (0x30 ≤ c && c ≤ 0x39) || c == dash || c == 0x5f

def isLineEnd (c : Byte) : Bool := c == cr || c == lf

/-- A header at the front of the text: its name, its value and what follows. With nothing
behind several blanks, the value is the last of them. -/
def headerLine (chunk : Str) : Option (Str × Str × Str) :=
  let key := chunk.takeWhile isHeaderChar
  let text := (chunk.drop key.length).tail
  let blanks := text.takeWhile (· == blank)
  let val := (text.drop blanks.length).takeWhile fun c => !isLineEnd c
  let behind := text.drop (blanks.length + val.length)
  if key.head?.any isUpper ∧ 2 ≤ key.length ∧ (chunk.drop key.length).head? = some colon ∧
      blanks ≠ [] ∧ (val ≠ [] ∨ 2 ≤ blanks.length) ∧ crlf <+: behind then
    some (key, if val = [] then [blank] else val, behind.drop crlf.length)
  else none

theorem headerLine_length {chunk : Str} {r : Str × Str × Str} (h : headerLine chunk = some r) :
    r.2.2.length < chunk.length := by
  unfold headerLine at h
  dsimp only at h
  split at h
  · next hcond =>
    obtain rfl := Option.some.inj h
    obtain ⟨_, hkey, _⟩ := hcond
    have hle : (chunk.takeWhile isHeaderChar).length ≤ chunk.length :=
      (List.takeWhile_prefix isHeaderChar).length_le
    simp only [List.length_drop, List.length_tail]
    omega
  · cases h

def setHeader (headers : List (Str × Str)) (key val : Str) : List (Str × Str) :=
  (key, val) :: headers.filter fun h => h.1 ≠ key

/-- The headers at the front of the text, one after the other. -/
def headerLines (chunk : Str) (headers : List (Str × Str)) : Str × List (Str × Str) :=
  match _h : headerLine chunk with
  | none => (chunk, headers)
  | some r => headerLines r.2.2 (setHeader headers r.1 r.2.1)
termination_by chunk.length
decreasing_by exact headerLine_length _h

/-- The match of the pattern for the name: what stands in the quotation marks. -/
def dispositionName (value : Str) : Option Str :=
  (findSub nameIs value).bind fun r =>
    if quote ∈ r.2 then some (r.2.takeWhile (· != quote)) else none

/-- The match of the pattern for the file name, which ends with the value. -/
def dispositionFile (value : Str) : Option Str :=
  (findSub filenameIs value).bind fun r =>
    if 2 ≤ r.2.length ∧ r.2.getLast? = some quote then some r.2.dropLast else none

/-- The name, the file name and the default of the content type, at the end of the headers. -/
def Field.complete (field : Field) : Field :=
  let field :=
    match field.headers.lookup contentDisposition with
    | none => field
    | some value =>
        if formData <+: value then
          { field with name := dispositionName value, file := dispositionFile value }
        else field
  if field.headers.lookup contentType = none then
    { field with headers := setHeader field.headers contentType textPlain }
  else field

/-- The parameter and the store of a field with all its headers. -/
def openField (env : Env) (s : Sink) : Except Failure Sink :=
  match s.field.name, s.field.file with
  | some name, some file =>
      if env.filecb then
        .ok { s with params := appendval (initval s.params name) name file, store := some .callback }
      else
        (initfileval s.params name file).map fun params =>
          { s with params, store := some (if env.mkstemp name then .file name else .param name) }
  | some name, none =>
      .ok { s with params := initval s.params name, store := some (.param name) }
  | none, _ => .ok { s with store := none }

/-- What is left of the text, and whether the headers are at their end. -/
def parseHeaders (env : Env) (s : Sink) (chunk : Str) : Except Failure (Str × Bool × Sink) :=
  let r := headerLines chunk s.field.headers
  let s := { s with field := { s.field with headers := r.2 } }
  if crlf <+: r.1 then
    (openField env { s with field := s.field.complete }).map fun s =>
      (r.1.drop crlf.length, true, s)
  else .ok (r.1, false, s)

/-- A call of the store. -/
def runStore (s : Sink) (buf : Str) (eof : Bool) : Except Failure Sink :=
  match s.store with
  | none => .error .luaError
  | some .callback => .ok { s with calls := s.calls ++ [⟨s.field, buf, eof⟩] }
  | some (.file name) => .ok { s with writes := s.writes ++ [(name, buf, eof)] }
  | some (.param name) => .ok { s with params := appendval s.params name buf }

/-- The first delimiter of the text, or else the closing one. -/
def findDelimiter (boundary data : Str) : Option (Str × Str) :=
  (findSub (delimiter boundary) data).or (findSub (closing boundary) data)

/-- What is in front of a delimiter ends the part. -/
def closePart (env : Env) (s : Sink) (predata : Str) : Except Failure Sink :=
  if s.inhdr then
    match parseHeaders env s predata with
    | .error e => .error e
    | .ok (predata, eof, s) =>
        if ¬eof then .error (.refused "Invalid MIME section header")
        else if s.field.name = none then .error (.refused "Invalid Content-Disposition header")
        else if s.store = none then .ok s
        else runStore s predata true
  else if s.store = none then .ok s
  else runStore s predata true

theorem delimiter_ne_nil (boundary : Str) : delimiter boundary ≠ [] := List.cons_ne_nil _ _
theorem closing_ne_nil (boundary : Str) : closing boundary ≠ [] := List.cons_ne_nil _ _

theorem headerLines_length (chunk : Str) (headers : List (Str × Str)) :
    (headerLines chunk headers).1.length ≤ chunk.length := by
  rw [headerLines]
  split
  · exact Nat.le_refl _
  · next r hr =>
    have hlt := headerLine_length hr
    exact (headerLines_length r.2.2 _).trans hlt.le
termination_by chunk.length

theorem parseHeaders_length {env : Env} {s : Sink} {chunk : Str} {r : Str × Bool × Sink}
    (h : parseHeaders env s chunk = .ok r) : r.1.length ≤ chunk.length := by
  have hle := headerLines_length chunk s.field.headers
  unfold parseHeaders at h
  dsimp only at h
  split at h
  · next hcrlf =>
    match hopen : openField env { s with
        field := { s.field with headers := (headerLines chunk s.field.headers).2 }.complete } with
    | .error e => rw [hopen] at h; cases h
    | .ok s' =>
      rw [hopen] at h
      obtain rfl := Except.ok.inj h
      exact (List.length_drop ▸ Nat.sub_le _ _).trans hle
  · obtain rfl := Except.ok.inj h
    exact hle

theorem findDelimiter_length {boundary data : Str} {r : Str × Str}
    (h : findDelimiter boundary data = some r) : r.2.length < data.length := by
  unfold findDelimiter at h
  rcases Option.or_eq_some_iff.mp h with h | ⟨_, h⟩
  · exact findSub_length_lt (delimiter_ne_nil boundary) h
  · exact findSub_length_lt (closing_ne_nil boundary) h

def noField : Field := ⟨[], none, none⟩

/-- The loop over the delimiters: whether there was one, what is left, and the new state. -/
def scan (env : Env) (boundary : Str) (s : Sink) (found : Bool) (data : Str) :
    Except Failure (Bool × Str × Sink) :=
  match _hfind : findDelimiter boundary data with
  | none => .ok (found, data, s)
  | some r =>
      match closePart env s r.1 with
      | .error e => .error e
      | .ok s =>
          match _hparse : parseHeaders env { s with field := noField } r.2 with
          | .error e => .error e
          | .ok p => scan env boundary { p.2.2 with inhdr := !p.2.1 } true p.1
termination_by data.length
decreasing_by exact (parseHeaders_length _hparse).trans_lt (findDelimiter_length _hfind)

/-- The sink; none is the end of the source. -/
def snk (env : Env) (boundary : Str) (contentLength : Option ℕ) (s : Sink) (chunk : Option Str) :
    Except Failure Sink :=
  let s := { s with tlen := s.tlen + (chunk.getD []).length }
  if contentLength.any fun n => s.tlen > n + 2 then
    .error (.refused "Message body size exceeds Content-Length")
  else
    match s.lchunk with
    | none => .ok { s with lchunk := chunk.map (crlf ++ ·) }
    | some lchunk =>
        match scan env boundary s false (lchunk ++ chunk.getD []) with
        | .error e => .error e
        | .ok (true, data, s) => .ok { s with lchunk := some data }
        | .ok (false, data, s) =>
            if s.inhdr then
              (parseHeaders env s data).map fun p =>
                { p.2.2 with lchunk := some p.1, inhdr := !p.2.1 }
            else (runStore s lchunk false).map fun s => { s with lchunk := chunk }

/-- The pump: every chunk of the source, then its end. -/
def pump (env : Env) (boundary : Str) (contentLength : Option ℕ) :
    List Str → Sink → Except Failure Sink
  | [], s => snk env boundary contentLength s none
  | chunk :: chunks, s =>
      match snk env boundary contentLength s (some chunk) with
      | .error e => .error e
      | .ok s => pump env boundary contentLength chunks s

def Sink.start (params : Params) : Sink where
  tlen := 0
  inhdr := false
  field := noField
  store := none
  lchunk := none
  params := params
  calls := []
  writes := []

def mimedecodeMessageBody (env : Env) (contentType : Option Str) (contentLength : Option ℕ)
    (chunks : List Str) (params : Params) : Except Failure Sink :=
  match contentType.bind mimeBoundary with
  | none => .error (.refused "Invalid Content-Type found")
  | some boundary => pump env boundary contentLength chunks (Sink.start params)

/-- A field of a form. The parameters of its header may come in either order. -/
structure Part where
  name : Str
  file : Option Str
  fileFirst : Bool
  content : Str
deriving DecidableEq

/-- "; ". -/
def nextParam : Str := [0x3b, blank]

def Part.disposition (p : Part) : Str :=
  match p.file with
  | none => formData ++ nameIs ++ p.name ++ [quote]
  | some file =>
      if p.fileFirst then
        formData ++ filenameIs ++ file ++ [quote] ++ nextParam ++ nameIs ++ p.name ++ [quote]
      else formData ++ nameIs ++ p.name ++ [quote] ++ nextParam ++ filenameIs ++ file ++ [quote]

def Part.line (p : Part) : Str := contentDisposition ++ colon :: blank :: p.disposition

def Part.header (p : Part) : Str := p.line ++ crlf ++ crlf

def encodePart (boundary : Str) (p : Part) : Str :=
  dashes ++ boundary ++ crlf ++ p.header ++ p.content ++ crlf

def encodeForm (boundary : Str) (parts : List Part) : Str :=
  parts.flatMap (encodePart boundary) ++ dashes ++ boundary ++ dashes ++ crlf

/-- What no line of a content begins with, after the end of the line before it. -/
def separator (boundary : Str) : Str := crlf ++ dashes ++ boundary

/-- The names of a part hold no quotation mark and no end of a line. -/
structure Part.Quoted (p : Part) : Prop where
  name : ∀ c ∈ p.name, c ≠ quote ∧ c ≠ cr ∧ c ≠ lf
  file : ∀ file ∈ p.file, ∀ c ∈ file, c ≠ quote ∧ c ≠ cr ∧ c ≠ lf

/-- A boundary and the fields it can separate. -/
structure Form where
  boundary : Str
  parts : List Part
  boundary_ne_nil : boundary ≠ []
  boundary_line : ∀ c ∈ boundary, c ≠ cr
  quoted : ∀ p ∈ parts, p.Quoted
  separated : ∀ p ∈ parts, ¬separator boundary <:+: crlf ++ p.content

/-- The delimiter in front of the remaining parts, and what is behind it. -/
def delimiterOf (boundary : Str) : List Part → Str
  | [] => closing boundary
  | _ :: _ => delimiter boundary

mutual

def behind (boundary : Str) : List Part → Str
  | [] => []
  | p :: rest => p.header ++ p.content ++ following boundary rest

def following (boundary : Str) : List Part → Str
  | [] => closing boundary
  | p :: rest => delimiter boundary ++ (p.header ++ p.content ++ following boundary rest)

end

theorem following_eq (boundary : Str) (rest : List Part) :
    following boundary rest = delimiterOf boundary rest ++ behind boundary rest := by
  cases rest with
  | nil => rw [following, delimiterOf, behind, List.append_nil]
  | cons p rest => rw [following, delimiterOf, behind]

theorem crlf_encodeForm (boundary : Str) (parts : List Part) :
    crlf ++ encodeForm boundary parts = following boundary parts := by
  induction parts with
  | nil => simp [encodeForm, following, closing]
  | cons p rest ih =>
    rw [following, ← ih]
    simp [encodeForm, encodePart, delimiter, List.append_assoc]

variable {boundary x : Str}

theorem separator_cons (boundary : Str) :
    separator boundary = cr :: (lf :: dashes ++ boundary) := rfl

theorem delimiter_eq (boundary : Str) : delimiter boundary = separator boundary ++ crlf := rfl

theorem closing_eq (boundary : Str) :
    closing boundary = separator boundary ++ (dashes ++ crlf) := by
  simp [closing, separator]

/-- Behind its first character a separator has no other place to begin. -/
theorem no_cr_behind (hb : ∀ c ∈ boundary, c ≠ cr) : ∀ c ∈ lf :: dashes ++ boundary, c ≠ cr := by
  intro c hc
  rw [List.cons_append, List.mem_cons, List.mem_append] at hc
  rcases hc with rfl | hc | hc
  · decide
  · rcases List.mem_pair.mp hc with rfl | rfl <;> decide
  · exact hb c hc

/-- In front of a separator no other one begins, unless the text in front has it. -/
theorem separator_not_prefix (hb : ∀ c ∈ boundary, c ≠ cr) (hx : ¬separator boundary <:+: x)
    {t : Str} (hne : t ≠ []) (ht : t <:+ x) (z : Str) :
    ¬separator boundary <+: t ++ (separator boundary ++ z) := by
  intro hpre
  rcases Nat.lt_or_ge t.length (separator boundary).length with hlt | hge
  · -- the separator would begin again behind t
    obtain ⟨u, hu⟩ := List.prefix_of_prefix_length_le (List.prefix_append t _) hpre hlt.le
    have hune : u ≠ [] := by
      rintro rfl
      rw [← hu, List.append_nil] at hlt
      exact lt_irrefl _ hlt
    rw [← hu, List.prefix_append_right_inj] at hpre
    obtain ⟨c, cs, rfl⟩ := List.exists_cons_of_ne_nil hune
    obtain ⟨d, ds, rfl⟩ := List.exists_cons_of_ne_nil hne
    rw [hu, separator_cons, List.cons_append, List.cons_prefix_cons] at hpre
    rw [separator_cons, List.cons_append, List.cons.injEq] at hu
    exact no_cr_behind hb c (hu.2 ▸ List.mem_append_right _ (List.mem_cons_self ..)) hpre.1
  · exact hx ((List.prefix_of_prefix_length_le hpre (List.prefix_append t _) hge).isInfix.trans
      ht.isInfix)

/-- The search runs over the text in front of a separator. -/
theorem findSub_in_front {pat : Str} (hb : ∀ c ∈ boundary, c ≠ cr)
    (hx : ¬separator boundary <:+: x) (hpat : separator boundary <+: pat) (z : Str) :
    findSub pat (x ++ (separator boundary ++ z)) =
      (findSub pat (separator boundary ++ z)).map fun r => (x ++ r.1, r.2) :=
  findSub_skip fun _ hne ht hpre => separator_not_prefix hb hx hne ht z (hpat.trans hpre)

theorem findSub_delimiter_closing (hb : ∀ c ∈ boundary, c ≠ cr) :
    findSub (delimiter boundary) (closing boundary) = none := by
  have hinner : ∀ c ∈ lf :: dashes ++ boundary ++ dashes, c ≠ cr := by
    intro c hc
    rcases List.mem_append.mp hc with hc | hc
    · exact no_cr_behind hb c hc
    · rcases List.mem_pair.mp hc with rfl | rfl <;> decide
  have hsplit : closing boundary = (cr :: (lf :: dashes ++ boundary ++ dashes)) ++ crlf := by
    simp [closing, crlf]
  rw [hsplit, findSub_skip, findSub_of_length_lt]
  · rfl
  · simp only [delimiter, crlf, List.length_append, List.length_cons]
    omega
  · intro t hne ht hpre
    rcases List.suffix_cons_iff.mp ht with rfl | ht
    · rw [← hsplit, delimiter_eq, closing_eq, List.prefix_append_right_inj] at hpre
      revert hpre
      decide
    · obtain ⟨c, cs, rfl⟩ := List.exists_cons_of_ne_nil hne
      rw [delimiter_eq, separator_cons, List.cons_append] at hpre
      exact hinner c (ht.subset (List.mem_cons_self ..)) (List.cons_prefix_cons.mp hpre).1.symm

theorem separator_prefix_delimiter (boundary : Str) :
    separator boundary <+: delimiter boundary := List.prefix_append _ _

theorem separator_prefix_closing (boundary : Str) :
    separator boundary <+: closing boundary := by
  rw [closing_eq]
  exact List.prefix_append _ _

theorem findSub_delimiter (hb : ∀ c ∈ boundary, c ≠ cr) (hx : ¬separator boundary <:+: x)
    (z : Str) : findSub (delimiter boundary) (x ++ (delimiter boundary ++ z)) = some (x, z) := by
  have hfind := findSub_in_front hb hx (separator_prefix_delimiter boundary) (crlf ++ z)
  have hsplit : separator boundary ++ (crlf ++ z) = delimiter boundary ++ z :=
    (List.append_assoc _ _ _).symm
  rw [hsplit, findSub_here (delimiter_ne_nil boundary)] at hfind
  rw [hfind, Option.map_some, List.append_nil]

theorem findSub_closing (hb : ∀ c ∈ boundary, c ≠ cr) (hx : ¬separator boundary <:+: x) :
    findSub (delimiter boundary) (x ++ closing boundary) = none ∧
      findSub (closing boundary) (x ++ closing boundary) = some (x, []) := by
  have hdelimiter := findSub_in_front hb hx (separator_prefix_delimiter boundary) (dashes ++ crlf)
  have hclosing := findSub_in_front hb hx (separator_prefix_closing boundary) (dashes ++ crlf)
  rw [← closing_eq] at hdelimiter hclosing
  rw [findSub_delimiter_closing hb] at hdelimiter
  have hself := findSub_here (closing_ne_nil boundary) []
  rw [List.append_nil] at hself
  rw [hself] at hclosing
  refine ⟨hdelimiter, ?_⟩
  rw [hclosing, Option.map_some, List.append_nil]

/-- In front of the end of a delimiter there is no closing one. -/
theorem findSub_closing_none (hb : ∀ c ∈ boundary, c ≠ cr) (hx : ¬separator boundary <:+: x) :
    findSub (closing boundary) (x ++ delimiter boundary) = none := by
  rw [delimiter_eq, findSub_in_front hb hx (separator_prefix_closing boundary),
    findSub_of_length_lt]
  · rfl
  · rw [closing_eq, List.length_append, List.length_append]
    exact Nat.add_lt_add_left (by decide) _

/-- The window reaches behind the delimiter in front of the remaining parts. -/
theorem findDelimiter_window (hb : ∀ c ∈ boundary, c ≠ cr) (hx : ¬separator boundary <:+: x)
    {rest : List Part} {data more : Str} (hdata : data ++ more = x ++ following boundary rest)
    (hlen : (x ++ delimiterOf boundary rest).length ≤ data.length) :
    ∃ data', findDelimiter boundary data = some (x, data') ∧
      data' ++ more = behind boundary rest := by
  unfold findDelimiter
  cases rest with
  | nil =>
    obtain ⟨hnone, hfind⟩ := findSub_closing hb hx
    rw [following] at hdata
    rw [← hdata] at hnone hfind
    obtain ⟨data', hdata', hmore⟩ := findSub_window (closing_ne_nil boundary) hfind hlen
    rw [findSub_none_of_append (delimiter_ne_nil boundary) hnone, Option.none_or, hdata']
    exact ⟨data', rfl, hmore.symm⟩
  | cons p rest =>
    have hfind := findSub_delimiter hb hx (behind boundary (p :: rest))
    rw [following_eq] at hdata
    change data ++ more = x ++ (delimiter boundary ++ behind boundary (p :: rest)) at hdata
    rw [← hdata] at hfind
    obtain ⟨data', hdata', hmore⟩ := findSub_window (delimiter_ne_nil boundary) hfind hlen
    rw [hdata', Option.some_or]
    exact ⟨data', rfl, hmore.symm⟩

/-- The window ends in front of the end of the delimiter. -/
theorem findDelimiter_window_none (hb : ∀ c ∈ boundary, c ≠ cr) (hx : ¬separator boundary <:+: x)
    {rest : List Part} {data more : Str} (hdata : data ++ more = x ++ following boundary rest)
    (hlen : data.length < (x ++ delimiterOf boundary rest).length) :
    findDelimiter boundary data = none := by
  unfold findDelimiter
  cases rest with
  | nil =>
    obtain ⟨hnone, hfind⟩ := findSub_closing hb hx
    rw [following] at hdata
    rw [← hdata] at hnone hfind
    rw [findSub_none_of_append (delimiter_ne_nil boundary) hnone, Option.none_or,
      findSub_window_none (closing_ne_nil boundary) hfind hlen]
  | cons p rest =>
    have hfind := findSub_delimiter hb hx (behind boundary (p :: rest))
    rw [following_eq] at hdata
    change data ++ more = x ++ (delimiter boundary ++ behind boundary (p :: rest)) at hdata
    rw [← hdata] at hfind
    have hpre : data <+: x ++ delimiter boundary := by
      refine List.prefix_of_prefix_length_le (List.prefix_append data more) ?_ hlen.le
      rw [hdata, ← List.append_assoc]
      exact List.prefix_append _ _
    obtain ⟨gap, hgap⟩ := hpre
    have hclosing := findSub_closing_none hb hx
    rw [← hgap] at hclosing
    rw [findSub_window_none (delimiter_ne_nil boundary) hfind hlen, Option.none_or,
      findSub_none_of_append (closing_ne_nil boundary) hclosing]

theorem headerLine_lf {chunk : Str} {r : Str × Str × Str} (h : headerLine chunk = some r) :
    lf ∈ chunk := by
  unfold headerLine at h
  dsimp only at h
  split at h
  · next hcond =>
    obtain ⟨_, _, _, _, _, hcrlf⟩ := hcond
    have hmem : lf ∈ crlf := by decide
    exact List.mem_of_mem_drop (List.mem_of_mem_tail (List.mem_of_mem_drop (hcrlf.subset hmem)))
  · cases h

theorem headerLine_nil : headerLine [] = none := rfl

theorem headerLine_cr (cs : Str) : headerLine (cr :: cs) = none := by
  unfold headerLine
  exact if_neg fun h => Bool.false_ne_true h.1

theorem headerLine_line {val : Str} (hne : val ≠ []) (hhead : val.head? ≠ some blank)
    (hval : ∀ c ∈ val, isLineEnd c = false) (z : Str) :
    headerLine (contentDisposition ++ colon :: blank :: val ++ crlf ++ z) =
      some (contentDisposition, val, z) := by
  have hkey : (contentDisposition ++ colon :: blank :: val ++ crlf ++ z).takeWhile isHeaderChar =
      contentDisposition := by
    rw [List.append_assoc, List.append_assoc, 
      List.takeWhile_append_of_pos (List.all_eq_true.mp (by decide))]
    rfl
  have hbehind : (contentDisposition ++ colon :: blank :: val ++ crlf ++ z).drop
      contentDisposition.length = colon :: blank :: (val ++ crlf ++ z) := by
    rw [List.append_assoc, List.append_assoc, List.drop_left]
    simp
  have hblanks : (blank :: (val ++ crlf ++ z)).takeWhile (· == blank) = [blank] := by
    obtain ⟨c, cs, rfl⟩ := List.exists_cons_of_ne_nil hne
    have hc : c ≠ blank := fun heq => hhead (congrArg some heq)
    simp [hc]
  have htext : (val ++ crlf ++ z).takeWhile (fun c => !isLineEnd c) = val := by
    rw [List.append_assoc, List.takeWhile_append_of_pos fun c hc => by rw [hval c hc]; rfl]
    simp [crlf, isLineEnd]
  unfold headerLine
  dsimp only
  rw [hkey, hbehind, List.tail_cons, hblanks, List.length_singleton, List.drop_one,
    List.tail_cons, htext]
  have hdrop : (blank :: (val ++ crlf ++ z)).drop (1 + val.length) = crlf ++ z := by
    rw [Nat.add_comm, List.drop_succ_cons, List.append_assoc, List.drop_left]
  rw [hdrop, if_pos, if_neg hne, List.drop_left]
  exact ⟨rfl, by decide, rfl, by decide, Or.inl hne, List.prefix_append _ _⟩

theorem headerLines_of_none {chunk : Str} (h : headerLine chunk = none)
    (headers : List (Str × Str)) : headerLines chunk headers = (chunk, headers) := by
  rw [headerLines]
  split
  · rfl
  · next hr => rw [h] at hr; cases hr

theorem headerLines_of_some {chunk : Str} {r : Str × Str × Str} (h : headerLine chunk = some r)
    (headers : List (Str × Str)) :
    headerLines chunk headers = headerLines r.2.2 (setHeader headers r.1 r.2.1) := by
  rw [headerLines]
  split
  · next hnone => rw [h] at hnone; cases hnone
  · next r' hr =>
    obtain rfl := Option.some.inj (h.symm.trans hr)
    rfl

/-- The characters of a header value. -/
def IsValue (val : Str) : Prop :=
  val ≠ [] ∧ val.head? ≠ some blank ∧ ∀ c ∈ val, isLineEnd c = false

variable {p : Part}

theorem Part.line_eq (p : Part) : p.line = contentDisposition ++ colon :: blank :: p.disposition :=
  rfl

theorem lf_not_mem_line (h : IsValue p.disposition) : lf ∉ p.line := by
  intro hmem
  rw [Part.line_eq, List.mem_append, List.mem_cons, List.mem_cons] at hmem
  rcases hmem with hmem | hmem | hmem | hmem
  · revert hmem
    decide
  · cases hmem
  · cases hmem
  · cases h.2.2 lf hmem

theorem cr_not_mem_line (h : IsValue p.disposition) : cr ∉ p.line := by
  intro hmem
  rw [Part.line_eq, List.mem_append, List.mem_cons, List.mem_cons] at hmem
  rcases hmem with hmem | hmem | hmem | hmem
  · revert hmem
    decide
  · cases hmem
  · cases hmem
  · cases h.2.2 cr hmem

/-- In front of the end of the line no header is taken. -/
theorem headerLine_window (h : IsValue p.disposition) {data more z : Str}
    (hdata : data ++ more = p.line ++ crlf ++ z) (hlen : data.length < (p.line ++ crlf).length) :
    headerLine data = none := by
  match hline : headerLine data with
  | none => rfl
  | some r =>
    exfalso
    have hmem := headerLine_lf hline
    have hpre : data <+: p.line ++ [cr] := by
      refine List.prefix_of_prefix_length_le (List.prefix_append data more) ?_ ?_
      · rw [hdata]
        exact ⟨lf :: z, by simp [crlf]⟩
      · rw [List.length_append] at hlen ⊢
        exact Nat.le_of_lt_succ hlen
    rcases List.mem_append.mp (hpre.subset hmem) with hmem | hmem
    · exact lf_not_mem_line h hmem
    · revert hmem
      decide

/-- What is still to come of the header of a part, with the headers taken so far. -/
def HeaderAt (p : Part) (left : Str) (headers : List (Str × Str)) : Prop :=
  (left = p.header ∧ headers = []) ∨ (left = crlf ∧ headers = [(contentDisposition, p.disposition)])

theorem headerLines_crlf {data more z : Str} (hdata : data ++ more = crlf ++ z)
    (headers : List (Str × Str)) : headerLines data headers = (data, headers) := by
  apply headerLines_of_none
  cases data with
  | nil => exact headerLine_nil
  | cons c cs =>
    injection hdata with hc _
    rw [hc]
    exact headerLine_cr cs

/-- The lines that end in the window are taken. -/
theorem headerLines_window (h : IsValue p.disposition) {left : Str} {headers : List (Str × Str)}
    (hleft : HeaderAt p left headers) {data more z : Str} (hdata : data ++ more = left ++ z) :
    ∃ left' data' headers', headerLines data headers = (data', headers') ∧
      HeaderAt p left' headers' ∧ data' ++ more = left' ++ z ∧
      (left' = crlf ∨ data.length < left.length ∧ data'.length < left'.length) ∧
      data'.length + left.length = data.length + left'.length := by
  rcases hleft with ⟨rfl, rfl⟩ | ⟨rfl, rfl⟩
  · have hline : data ++ more = p.line ++ crlf ++ (crlf ++ z) := by
      rw [hdata, Part.header, List.append_assoc, List.append_assoc]
    rcases Nat.lt_or_ge data.length (p.line ++ crlf).length with hlt | hge
    · have hheader : (p.line ++ crlf).length < p.header.length := by
        simp [Part.header, crlf]
      refine ⟨p.header, data, [], headerLines_of_none (headerLine_window h hline hlt) [],
        Or.inl ⟨rfl, rfl⟩, hdata, Or.inr ⟨hlt.trans hheader, hlt.trans hheader⟩, rfl⟩
    · obtain ⟨data', rfl⟩ := List.prefix_of_prefix_length_le
        (hline ▸ List.prefix_append _ _ : p.line ++ crlf <+: data ++ more)
        (List.prefix_append data more) hge
      have hmore : data' ++ more = crlf ++ z := by
        rw [List.append_assoc] at hline
        exact List.append_cancel_left hline
      refine ⟨crlf, data', [(contentDisposition, p.disposition)], ?_, Or.inr ⟨rfl, rfl⟩, hmore,
        Or.inl rfl, ?_⟩
      · rw [Part.line_eq, headerLines_of_some (headerLine_line h.1 h.2.1 h.2.2 data')]
        exact headerLines_crlf hmore _
      · simp only [Part.header, List.length_append]
        omega
  · exact ⟨crlf, data, _, headerLines_crlf hdata _, Or.inr ⟨rfl, rfl⟩, hdata, Or.inl rfl, rfl⟩

/-- The field as the decoder reads it. -/
def Part.field (p : Part) : Field :=
  Field.complete ⟨[(contentDisposition, p.disposition)], none, none⟩

theorem crlf_length_lt_header (p : Part) : crlf.length < p.header.length := by
  simp only [Part.header, List.length_append, Part.line, List.length_cons]
  omega

theorem headers_of_crlf {headers : List (Str × Str)} (h : HeaderAt p crlf headers) :
    headers = [(contentDisposition, p.disposition)] := by
  rcases h with ⟨hleft, _⟩ | ⟨_, hheaders⟩
  · have hlen := crlf_length_lt_header p
    rw [← hleft] at hlen
    exact absurd hlen (lt_irrefl _)
  · exact hheaders

/-- The window holds the end of the headers. -/
theorem parseHeaders_end (env : Env) (h : IsValue p.disposition) {left : Str}
    {headers : List (Str × Str)} (hleft : HeaderAt p left headers) {s : Sink}
    (hs : s.field = ⟨headers, none, none⟩) (z : Str) :
    parseHeaders env s (left ++ z) =
      (openField env { s with field := p.field }).map fun s => (z, true, s) := by
  have hdata : (left ++ z) ++ [] = left ++ z := List.append_nil _
  obtain ⟨left', data', headers', hlines, hat, hmore, hwhich, hlen⟩ :=
    headerLines_window h hleft hdata
  have hcrlf : left' = crlf := by
    refine hwhich.resolve_right fun hand => ?_
    have := hand.1
    rw [List.length_append] at this
    omega
  subst hcrlf
  obtain rfl := headers_of_crlf hat
  obtain rfl : data' = crlf ++ z := by
    rw [List.append_nil] at hmore
    exact hmore
  unfold parseHeaders
  dsimp only
  rw [hs, hlines]
  dsimp only
  rw [if_pos (List.prefix_append _ _), List.drop_left]
  rfl

/-- The window ends within the headers. -/
theorem parseHeaders_part (env : Env) (h : IsValue p.disposition) {left : Str}
    {headers : List (Str × Str)} (hleft : HeaderAt p left headers) {s : Sink}
    (hs : s.field = ⟨headers, none, none⟩) {data more z : Str} (hdata : data ++ more = left ++ z)
    (hshort : data.length < left.length) :
    ∃ left' data' headers',
      parseHeaders env s data = .ok (data', false, { s with field := ⟨headers', none, none⟩ }) ∧
        HeaderAt p left' headers' ∧ data' ++ more = left' ++ z ∧ data'.length < left'.length := by
  obtain ⟨left', data', headers', hlines, hat, hmore, hwhich, hlen⟩ :=
    headerLines_window h hleft hdata
  have hshort' : data'.length < left'.length := by omega
  refine ⟨left', data', headers', ?_, hat, hmore, hshort'⟩
  have hno : ¬crlf <+: data' := by
    intro hcrlf
    rcases hat with ⟨rfl, _⟩ | ⟨rfl, _⟩
    · have hpre : crlf <+: p.header ++ z := by
        rw [← hmore]
        exact hcrlf.trans (List.prefix_append _ _)
      rw [Part.header, Part.line] at hpre
      exact absurd (List.cons_prefix_cons.mp hpre).1 (by decide)
    · exact absurd hcrlf.length_le (by omega)
  unfold parseHeaders
  dsimp only
  rw [hs, hlines]
  dsimp only
  rw [if_neg hno]

theorem formData_prefix (p : Part) : formData <+: p.disposition := by
  unfold Part.disposition
  simp only [List.append_assoc]
  split
  · exact List.prefix_append _ _
  · split
    · exact List.prefix_append _ _
    · exact List.prefix_append _ _

theorem Part.field_eq (p : Part) :
    p.field = ⟨[(contentType, textPlain), (contentDisposition, p.disposition)],
      dispositionName p.disposition, dispositionFile p.disposition⟩ := by
  have hlookup : [(contentDisposition, p.disposition)].lookup contentDisposition =
      some p.disposition := by simp
  have htype : [(contentDisposition, p.disposition)].lookup contentType = none := by
    rw [List.lookup_cons]
    rfl
  unfold Part.field Field.complete
  simp only [hlookup, formData_prefix p, if_true, htype]
  rfl

end Iot7688.LuciMime
