import Iot7688.Lib.Memory

/-!
The upload command of cgi-io: the callbacks that a multipart parser makes for a request,
over the global state they share. The parser hands over at least one data piece of a part,
maybe an empty one, and stops at the first callback that does not return 0. The session
daemon and the file system are parameters. A session id is asked for with the last piece of
its part, so it is complete only when that piece is the whole part.
-/
namespace Iot7688.CgiUpload

open Lib

/-- What a callback is handed, with what lies behind it in the buffer. -/
structure Piece where
  bytes : List Byte
  behind : List Byte

def Piece.text (p : Piece) : List Byte := p.bytes ++ p.behind

/-- enum part. -/
inductive PartType
  | unknown
  | sessionid
  | filename
  | filemode
  | filedata
deriving DecidableEq

/-- What the callbacks do outside: ask for a session, open the target, remove it. -/
inductive Action
  | access (sid : List Byte) (allow : Bool)
  | openTarget (filename : List Byte)
  | unlink (filename : List Byte)
deriving DecidableEq

structure System where
  access : List Action → List Byte → Bool
  mkstemp : ℤ
  write : List Byte → List Byte → Bool
  lseek : ℤ
  openTarget : ℤ
  writeTarget : List Byte → List Byte → Bool
  chmod : ℕ → ℤ

/-- struct state, the contents of the two files and the actions so far. -/
structure St where
  isContentDisposition : Bool
  parttype : PartType
  sessionid : Option (List Byte)
  filename : Option (List Byte)
  filedata : Bool
  filemode : ℕ
  filefd : ℤ
  tempfd : ℤ
  temp : List Byte
  target : List Byte
  log : List Action

def St.start : St where
  isContentDisposition := false
  parttype := .unknown
  sessionid := none
  filename := none
  filedata := false
  filemode := 0o600
  filefd := -1
  tempfd := -1
  temp := []
  target := []
  log := []

/-- A copy made by datadup, as a C string. -/
def cstr (bytes : List Byte) : List Byte := bytes.takeWhile (· != 0)

def tolower (c : Byte) : Byte := if 0x41 ≤ c ∧ c ≤ 0x5a then c + 0x20 else c

/-- No difference in the first n characters, compared through f. Strings end with NUL. -/
def sameUpTo (f : Byte → Byte) : ℕ → List Byte → List Byte → Bool
  | 0, _, _ => true
  | n + 1, a, b =>
      if f (a.headD 0) ≠ f (b.headD 0) then false
      else if a.headD 0 = 0 then true
      else sameUpTo f n a.tail b.tail

/-- "Content-Disposition". -/
def contentDisposition : List Byte :=
  [0x43, 0x6f, 0x6e, 0x74, 0x65, 0x6e, 0x74, 0x2d, 0x44, 0x69, 0x73, 0x70, 0x6f, 0x73, 0x69, 0x74,
    0x69, 0x6f, 0x6e]

/-- "form-data". -/
def formData : List Byte := [0x66, 0x6f, 0x72, 0x6d, 0x2d, 0x64, 0x61, 0x74, 0x61]

/-- "name=" with the opening quote. -/
def nameIs : List Byte := [0x6e, 0x61, 0x6d, 0x65, 0x3d, 0x22]

/-- "sessionid", "filename", "filemode" and "filedata". -/
def parts : List (List Byte × PartType) := [
  ([0x73, 0x65, 0x73, 0x73, 0x69, 0x6f, 0x6e, 0x69, 0x64], .sessionid),
  ([0x66, 0x69, 0x6c, 0x65, 0x6e, 0x61, 0x6d, 0x65], .filename),
  ([0x66, 0x69, 0x6c, 0x65, 0x6d, 0x6f, 0x64, 0x65], .filemode),
  ([0x66, 0x69, 0x6c, 0x65, 0x64, 0x61, 0x74, 0x61], .filedata)]

def headerField (p : Piece) : Bool := sameUpTo tolower p.bytes.length p.text contentDisposition

/-- The part type that a piece of a header value leaves. The last name that agrees with
the quoted one, over the length of the quoted one, counts. -/
def headerValue (isContentDisposition : Bool) (p : Piece) (parttype : PartType) : PartType :=
  if !isContentDisposition then parttype
  else if p.bytes.length < 10 ∨ !sameUpTo tolower 9 p.text formData then parttype
  else
    let skipped := ((p.text.drop 9).takeWhile fun c => c == 0x20 || c == 0x3b).length
    let data := p.text.drop (9 + skipped)
    let len := (p.bytes.length - 9 + (2 ^ 32 - skipped)) % 2 ^ 32
    if len < 8 ∨ !sameUpTo tolower 6 data nameIs then parttype
    else
      let data := data.drop 6
      let i := (data.takeWhile (· != 0x22)).length
      if i < data.length ∧ i ≤ len - 6 then
        parts.foldl (fun t q => if sameUpTo id i data q.1 then q.2 else t) parttype
      else parttype

/-- response: its result is always -1. -/
def response (success : Bool) (st : St) : ℤ × St :=
  if success ∨ st.filefd ≤ -1 then (-1, st)
  else (-1, { st with log := st.log ++ [.unlink (cstr (st.filename.getD []))] })

/-- strtoul in base 8. -/
def strtoul8 (text : List Byte) : ℕ :=
  let text := text.dropWhile fun c => c == 0x20 || (0x09 ≤ c && c ≤ 0x0d)
  let digits := if text.head? = some 0x2b ∨ text.head? = some 0x2d then text.tail else text
  let value := (digits.takeWhile fun c => 0x30 ≤ c && c ≤ 0x37).foldl
    (fun n c => min (2 ^ 32 - 1) (8 * n + (c.toNat - 0x30))) 0
  if text.head? = some 0x2d ∧ value ≠ 2 ^ 32 - 1 then (2 ^ 32 - value) % 2 ^ 32 else value

section

variable (sys : System)

def dataBegin (st : St) : ℤ × St :=
  if st.parttype = .filedata then
    if st.sessionid = none then response false st
    else if st.filename = none then response false st
    else
      let st := { st with tempfd := sys.mkstemp, temp := [] }
      if st.tempfd < 0 then response false st else (0, st)
  else (0, st)

def dataPiece (p : Piece) (st : St) : ℤ × St :=
  match st.parttype with
  | .sessionid => (0, { st with sessionid := some p.bytes })
  | .filename => (0, { st with filename := some p.bytes })
  | .filemode => (0, { st with filemode := strtoul8 p.text })
  | .filedata =>
      if sys.write st.temp p.bytes then
        (0, { st with temp := st.temp ++ p.bytes, filedata := st.filedata || p.bytes ≠ [] })
      else response false st
  | .unknown => (0, st)

/-- The loop of filecopy, over buffers of 4096 bytes. -/
def copyLoop (temp target : List Byte) : Bool × List Byte :=
  if _h : temp = [] then (true, target)
  else if sys.writeTarget target (temp.take 4096) then
    copyLoop (temp.drop 4096) (target ++ temp.take 4096)
  else (false, target)
termination_by temp.length
decreasing_by
  have := List.length_pos_iff.mpr _h
  rw [List.length_drop]
  omega

def filecopy (st : St) : ℤ × St :=
  if !st.filedata then response false st
  else if sys.lseek < 0 then response false st
  else
    let st := { st with
      filefd := sys.openTarget
      log := st.log ++ [.openTarget (cstr (st.filename.getD []))] }
    if st.filefd < 0 then response false st
    else
      let r := copyLoop sys st.temp []
      let st := { st with target := r.2 }
      if !r.1 then response false st
      else if sys.chmod st.filemode ≠ 0 then response false st
      else (0, st)

/-- Without a session id, session_access does not come back. -/
def dataEnd (st : St) : ℤ × St :=
  match st.parttype with
  | .sessionid =>
      match st.sessionid with
      | none => (-1, st)
      | some sid =>
          let allow := sys.access st.log (cstr sid)
          let st := { st with log := st.log ++ [.access (cstr sid) allow] }
          if !allow then response false st else (0, { st with parttype := .unknown })
  | .filedata =>
      if st.tempfd < 0 then response false st
      else
        let r := filecopy sys st
        if r.1 ≠ 0 then (-1, r.2) else response true r.2
  | _ => (0, { st with parttype := .unknown })

inductive Event
  | headerField (p : Piece)
  | headerValue (p : Piece)
  | headersComplete
  | data (p : Piece)
  | dataEnd

def callback : Event → St → ℤ × St
  | .headerField p, st => (0, { st with isContentDisposition := headerField p })
  | .headerValue p, st =>
      (0, { st with parttype := headerValue st.isContentDisposition p st.parttype })
  | .headersComplete, st => dataBegin sys st
  | .data p, st => dataPiece sys p st
  | .dataEnd, st => dataEnd sys st

/-- The parser stops at the first callback that does not return 0. -/
def runCallbacks : List Event → St → ℤ × St
  | [], st => (0, st)
  | e :: es, st =>
      let r := callback sys e st
      if r.1 ≠ 0 then r else runCallbacks es r.2

end

structure Header where
  field : List Piece
  lastField : Piece
  value : List Piece

structure Part where
  headers : List Header
  pieces : List Piece
  lastPiece : Piece

/-- The parts of a request, and the callbacks for one that is cut off. -/
structure Request where
  complete : List Part
  unfinished : List Event
  unfinished_open : Event.dataEnd ∉ unfinished

def Header.callbacks (h : Header) : List Event :=
  h.field.map .headerField ++ .headerField h.lastField :: h.value.map .headerValue

def Part.callbacks (p : Part) : List Event :=
  p.headers.flatMap Header.callbacks ++
    .headersComplete :: (p.pieces.map .data ++ [.data p.lastPiece, .dataEnd])

def Request.callbacks (r : Request) : List Event :=
  r.complete.flatMap Part.callbacks ++ r.unfinished

/-- The state in which an upload ends. -/
def upload (sys : System) (r : Request) : St := (runCallbacks sys r.callbacks St.start).2

/-- The type of a part after the values of one header. -/
def headerType (t : PartType) (h : Header) : PartType :=
  h.value.foldl (fun t p => headerValue (headerField h.lastField) p t) t

namespace Part

def type (p : Part) : PartType := p.headers.foldl headerType .unknown

/-- What the request sends as the part. -/
def content (p : Part) : List Byte := p.pieces.flatMap Piece.bytes ++ p.lastPiece.bytes

/-- What session_access is asked for. -/
def kept (p : Part) : List Byte := cstr p.lastPiece.bytes

/-- The last piece is the whole part, without a NUL. -/
def Whole (p : Part) : Prop := p.kept = p.content

end Part

namespace Request

/-- The parts in front of the first file part. -/
def beforeFile (r : Request) : List Part := r.complete.takeWhile fun p => p.type ≠ .filedata

def sessionParts (r : Request) : List Part := r.beforeFile.filter fun p => p.type = .sessionid

/-- There is file data, behind a session id and a file name. -/
def HasUpload (r : Request) : Prop :=
  (∃ p, (r.complete.dropWhile fun p => p.type ≠ .filedata).head? = some p ∧ p.content ≠ []) ∧
    (∃ p ∈ r.beforeFile, p.type = .sessionid) ∧ ∃ p ∈ r.beforeFile, p.type = .filename

end Request

def Action.isOpen : Action → Bool
  | .openTarget _ => true
  | _ => false

/-- The session ids asked for, with the answers. -/
def accesses (log : List Action) : List (List Byte × Bool) :=
  log.filterMap fun a => match a with
    | .access sid allow => some (sid, allow)
    | _ => none

/-- The target is opened only after each session id sent until then, at least one, was
asked for in full and allowed, and none was refused. -/
def Authorised (r : Request) (log : List Action) : Prop :=
  ∀ before name after, log = before ++ .openTarget name :: after →
    r.sessionParts ≠ [] ∧ accesses before = r.sessionParts.map fun p => (p.content, true)

def NoOpen (log : List Action) : Prop := ∀ a ∈ log, a.isOpen = false

variable (sys : System)

/-- The callbacks all return 0 and lead from one state to the other. -/
def Passes (es : List Event) (st st' : St) : Prop :=
  ∀ rest, runCallbacks sys (es ++ rest) st = runCallbacks sys rest st'

/-- One of the callbacks ends the request in the state. -/
def Stops (es : List Event) (st st' : St) : Prop :=
  ∀ rest, (runCallbacks sys (es ++ rest) st).2 = st'

variable {sys}

theorem Passes.nil (st : St) : Passes sys [] st st := fun _ => rfl

theorem Passes.append {a b : List Event} {s t u : St} (h : Passes sys a s t)
    (h' : Passes sys b t u) : Passes sys (a ++ b) s u := fun rest => by
  rw [List.append_assoc, h, h']

theorem Passes.stops {a b : List Event} {s t u : St} (h : Passes sys a s t)
    (h' : Stops sys b t u) : Stops sys (a ++ b) s u := fun rest => by
  rw [List.append_assoc, h, h']

theorem Stops.append {a : List Event} {s t : St} (h : Stops sys a s t) (b : List Event) :
    Stops sys (a ++ b) s t := fun rest => by
  rw [List.append_assoc, h]

theorem Passes.single {e : Event} {s t : St} (h : callback sys e s = (0, t)) :
    Passes sys [e] s t := fun rest => by
  rw [List.singleton_append, runCallbacks, h]
  rfl

theorem Stops.single {e : Event} {s t : St} (h : callback sys e s = (-1, t)) :
    Stops sys [e] s t := fun rest => by
  rw [List.singleton_append, runCallbacks, h]
  rfl

theorem Passes.cons {e : Event} {es : List Event} {s t u : St} (h : Passes sys [e] s t)
    (h' : Passes sys es t u) : Passes sys (e :: es) s u := h.append h'

variable (sys)

theorem header_passes (h : Header) (st : St) :
    Passes sys h.callbacks st { st with
      isContentDisposition := headerField h.lastField
      parttype := headerType st.parttype h } := by
  have hfield (l : List Piece) (st : St) : ∃ b,
      Passes sys (l.map .headerField) st { st with isContentDisposition := b } := by
    induction l generalizing st with
    | nil => exact ⟨_, Passes.nil st⟩
    | cons p l ih =>
      obtain ⟨b, hb⟩ := ih { st with isContentDisposition := headerField p }
      exact ⟨b, (Passes.single rfl).cons hb⟩
  have hvalue (l : List Piece) (st : St) : Passes sys (l.map .headerValue) st { st with
      parttype := l.foldl (fun t p => headerValue st.isContentDisposition p t) st.parttype } := by
    induction l generalizing st with
    | nil => exact Passes.nil st
    | cons p l ih => exact (Passes.single rfl).cons (ih _)
  obtain ⟨b, hb⟩ := hfield h.field st
  refine hb.append ((Passes.single rfl).cons ?_)
  exact hvalue h.value _

theorem headers_pass (l : List Header) (st : St) : ∃ b, Passes sys (l.flatMap Header.callbacks) st
    { st with isContentDisposition := b, parttype := l.foldl headerType st.parttype } := by
  induction l generalizing st with
  | nil => exact ⟨_, Passes.nil st⟩
  | cons h l ih =>
    obtain ⟨b, hb⟩ := ih { st with
      isContentDisposition := headerField h.lastField
      parttype := headerType st.parttype h }
    exact ⟨b, (header_passes sys h st).append hb⟩

/-- What a data piece leaves in the state outside of file parts. -/
def St.keep (t : PartType) (p : Piece) (st : St) : St :=
  match t with
  | .sessionid => { st with sessionid := some p.bytes }
  | .filename => { st with filename := some p.bytes }
  | .filemode => { st with filemode := strtoul8 p.text }
  | _ => st

theorem pieces_kept (l : List Piece) (last : Piece) {t : PartType} (ht : t ≠ .filedata) {st : St}
    (h : st.parttype = t) : Passes sys (l.map .data ++ [.data last]) st (st.keep t last) := by
  have hone (p : Piece) {st : St} (h : st.parttype = t) :
      Passes sys [.data p] st (st.keep t p) := by
    refine Passes.single ?_
    obtain ⟨_, parttype, _⟩ := st
    obtain rfl : parttype = t := h
    cases parttype with
    | filedata => exact absurd rfl ht
    | _ => rfl
  induction l generalizing st with
  | nil => exact hone last h
  | cons p l ih =>
    have hkept : (st.keep t p).parttype = t := by
      cases t with
      | _ => exact h
    have htwice : (st.keep t p).keep t last = st.keep t last := by
      cases t with
      | _ => rfl
    refine (hone p h).cons ?_
    rw [← htwice]
    exact ih hkept

/-- A system in which nothing is refused and nothing fails up to the opening. -/
structure Permits (sys : System) : Prop where
  access : ∀ log sid, sys.access log sid = true
  mkstemp : 0 ≤ sys.mkstemp
  write : ∀ temp bytes, sys.write temp bytes = true
  lseek : 0 ≤ sys.lseek

/-- The state between two parts, after parts that are no file parts. -/
structure Ready (ps : List Part) (st : St) : Prop where
  parttype : st.parttype = .unknown
  filefd : st.filefd = -1
  filedata : st.filedata = false
  log : st.log = (ps.filter fun p => p.type = .sessionid).map fun p => .access p.kept true
  sessionid : st.sessionid ≠ none ↔ ∃ p ∈ ps, p.type = .sessionid
  filename : st.filename ≠ none ↔ ∃ p ∈ ps, p.type = .filename

theorem Ready.start : Ready [] St.start where
  parttype := rfl
  filefd := rfl
  filedata := rfl
  log := rfl
  sessionid := by simp [St.start]
  filename := by simp [St.start]

theorem NoOpen.append {a b : List Action} (h : NoOpen a) (h' : NoOpen b) : NoOpen (a ++ b) :=
  fun x hx => (List.mem_append.mp hx).elim (h x) (h' x)

theorem Ready.noOpen {ps : List Part} {st : St} (h : Ready ps st) : NoOpen st.log := by
  rw [h.log]
  intro a ha
  obtain ⟨p, _, rfl⟩ := List.mem_map.mp ha
  rfl

/-- A part that is no file part up to its end. -/
theorem part_kept (p : Part) (hne : p.type ≠ .filedata) {st : St} (h : st.parttype = .unknown) :
    ∃ b, Passes sys (p.headers.flatMap Header.callbacks ++
        .headersComplete :: (p.pieces.map .data ++ [.data p.lastPiece])) st
      (St.keep p.type p.lastPiece { st with isContentDisposition := b, parttype := p.type }) := by
  obtain ⟨b, hb⟩ := headers_pass sys p.headers st
  rw [h] at hb
  refine ⟨b, hb.append (Passes.cons (Passes.single ?_) (pieces_kept sys _ _ hne rfl))⟩
  exact if_neg hne

theorem part_callbacks_eq (p : Part) : p.callbacks = (p.headers.flatMap Header.callbacks ++
    .headersComplete :: (p.pieces.map .data ++ [.data p.lastPiece])) ++ [.dataEnd] := by
  simp [Part.callbacks]

/-- A part that is no file part is remembered, or its session id is refused. -/
theorem part_ready {ps : List Part} (p : Part) (hne : p.type ≠ .filedata) {st : St}
    (h : Ready ps st) :
    (∃ st', Passes sys p.callbacks st st' ∧ Ready (ps ++ [p]) st') ∨
      (∃ st', Stops sys p.callbacks st st' ∧ NoOpen st'.log) ∧ ¬Permits sys := by
  obtain ⟨b, hb⟩ := part_kept sys p hne h.parttype
  rw [part_callbacks_eq]
  have hno := h.noOpen
  obtain ⟨_, hfilefd, hfiledata, hlog, hsession, hname⟩ := h
  by_cases hs : p.type = .sessionid
  · rw [hs] at hb
    have hend : callback sys .dataEnd
        (St.keep .sessionid p.lastPiece { st with
          isContentDisposition := b, parttype := .sessionid }) =
        if !sys.access st.log p.kept then
          response false { st with
            isContentDisposition := b
            parttype := .sessionid
            sessionid := some p.lastPiece.bytes
            log := st.log ++ [.access p.kept (sys.access st.log p.kept)] }
        else (0, { st with
            isContentDisposition := b
            parttype := .unknown
            sessionid := some p.lastPiece.bytes
            log := st.log ++ [.access p.kept (sys.access st.log p.kept)] }) := rfl
    cases hallow : sys.access st.log p.kept with
    | true =>
      rw [hallow, Bool.not_true, if_neg Bool.false_ne_true] at hend
      refine Or.inl ⟨_, hb.append (Passes.single hend), rfl, hfilefd, hfiledata, ?_, ?_, ?_⟩
      · simp [hlog, hs]
      · simp [hs]
      · simp [hname, hs, or_and_right, exists_or]
    | false =>
      rw [hallow, Bool.not_false, if_pos rfl, response,
        if_pos (Or.inr (Int.le_of_eq hfilefd))] at hend
      refine Or.inr ⟨⟨_, hb.stops (Stops.single hend), ?_⟩, fun hperm => ?_⟩
      · exact hno.append (by simp [NoOpen, Action.isOpen])
      · rw [hperm.access] at hallow
        cases hallow
  · have hend : callback sys .dataEnd
        (St.keep p.type p.lastPiece { st with isContentDisposition := b, parttype := p.type }) =
        (0, { St.keep p.type p.lastPiece { st with
          isContentDisposition := b, parttype := p.type } with parttype := .unknown }) := by
      cases ht : p.type with
      | sessionid => exact absurd ht hs
      | filedata => exact absurd ht hne
      | _ => rfl
    refine Or.inl ⟨_, hb.append (Passes.single hend), ?_⟩
    cases ht : p.type with
    | sessionid => exact absurd ht hs
    | filedata => exact absurd ht hne
    | filename =>
      refine ⟨rfl, hfilefd, hfiledata, ?_, ?_, ?_⟩
      · simp [St.keep, hlog, ht]
      · simp [St.keep, hsession, ht, or_and_right, exists_or]
      · simp [St.keep, ht]
    | unknown | filemode =>
      refine ⟨rfl, hfilefd, hfiledata, ?_, ?_, ?_⟩
      · simp [St.keep, hlog, ht]
      · simp [St.keep, hsession, ht, or_and_right, exists_or]
      · simp [St.keep, hname, ht, or_and_right, exists_or]

theorem parts_ready (l : List Part) (hne : ∀ p ∈ l, p.type ≠ .filedata) {ps : List Part} {st : St}
    (h : Ready ps st) :
    (∃ st', Passes sys (l.flatMap Part.callbacks) st st' ∧ Ready (ps ++ l) st') ∨
      (∃ st', Stops sys (l.flatMap Part.callbacks) st st' ∧ NoOpen st'.log) ∧ ¬Permits sys := by
  induction l generalizing ps st with
  | nil => exact Or.inl ⟨st, Passes.nil st, by rwa [List.append_nil]⟩
  | cons p l ih =>
    obtain ⟨hp, hl⟩ := List.forall_mem_cons.mp hne
    rw [List.flatMap_cons]
    rcases part_ready sys p hp h with ⟨st', hpass, hready⟩ | ⟨⟨st', hstop, hno⟩, hperm⟩
    · rcases ih hl hready with ⟨st'', hpass', hready'⟩ | ⟨⟨st'', hstop, hno⟩, hperm⟩
      · rw [List.append_assoc] at hready'
        exact Or.inl ⟨st'', hpass.append hpass', hready'⟩
      · exact Or.inr ⟨⟨st'', hpass.stops hstop, hno⟩, hperm⟩
    · exact Or.inr ⟨⟨st', hstop.append _, hno⟩, hperm⟩

/-- The target was not opened in between. -/
def Extends (log log' : List Action) : Prop := ∃ tail, NoOpen tail ∧ log' = log ++ tail

theorem Extends.refl (log : List Action) : Extends log log :=
  ⟨[], fun _ ha => absurd ha List.not_mem_nil, (List.append_nil _).symm⟩

theorem Extends.trans {a b c : List Action} (h : Extends a b) (h' : Extends b c) :
    Extends a c := by
  obtain ⟨t, ht, rfl⟩ := h
  obtain ⟨t', ht', rfl⟩ := h'
  exact ⟨t ++ t', ht.append ht', List.append_assoc _ _ _⟩

theorem Extends.noOpen {a b : List Action} (h : Extends a b) (ha : NoOpen a) : NoOpen b := by
  obtain ⟨t, ht, rfl⟩ := h
  exact ha.append ht

theorem response_eq (success : Bool) (st : St) : ∃ st', response success st = (-1, st') ∧
    Extends st.log st'.log := by
  unfold response
  split
  · exact ⟨_, rfl, Extends.refl _⟩
  · refine ⟨_, rfl, _, ?_, rfl⟩
    simp [NoOpen, Action.isOpen]

theorem response_log (success : Bool) (st : St) : Extends st.log (response success st).2.log := by
  obtain ⟨st', heq, hlog⟩ := response_eq success st
  rwa [heq]

/-- filecopy opens the target when there is data to copy. -/
theorem filecopy_log (st : St) :
    (st.filedata = true → 0 ≤ sys.lseek →
        Extends (st.log ++ [.openTarget (cstr (st.filename.getD []))]) (filecopy sys st).2.log) ∧
      (Extends st.log (filecopy sys st).2.log ∨ st.filedata = true ∧
        Extends (st.log ++ [.openTarget (cstr (st.filename.getD []))]) (filecopy sys st).2.log) := by
  unfold filecopy
  cases hdata : st.filedata with
  | false =>
    rw [Bool.not_false, if_pos rfl]
    exact ⟨fun h => absurd h Bool.false_ne_true, Or.inl (response_log _ _)⟩
  | true =>
    rw [Bool.not_true, if_neg Bool.false_ne_true]
    by_cases hseek : sys.lseek < 0
    · rw [if_pos hseek]
      exact ⟨fun _ h => absurd hseek (by omega), Or.inl (response_log _ _)⟩
    · rw [if_neg hseek]
      have hopen : Extends (st.log ++ [.openTarget (cstr (st.filename.getD []))])
          (filecopy sys st).2.log := by
        rw [filecopy, hdata, Bool.not_true, if_neg Bool.false_ne_true, if_neg hseek]
        dsimp only
        split
        · exact response_log _ _
        split
        · exact response_log _ _
        split
        · exact response_log _ _
        · exact Extends.refl _
      rw [filecopy, hdata, Bool.not_true, if_neg Bool.false_ne_true, if_neg hseek] at hopen
      exact ⟨fun _ _ => hopen, Or.inr ⟨rfl, hopen⟩⟩

/-- The end of a file part ends the request. -/
theorem dataEnd_log {st : St} (h : st.parttype = .filedata) : ∃ st',
    callback sys .dataEnd st = (-1, st') ∧
      (0 ≤ st.tempfd → st.filedata = true → 0 ≤ sys.lseek →
        Extends (st.log ++ [.openTarget (cstr (st.filename.getD []))]) st'.log) ∧
      (Extends st.log st'.log ∨ st.filedata = true ∧
        Extends (st.log ++ [.openTarget (cstr (st.filename.getD []))]) st'.log) := by
  change ∃ st', dataEnd sys st = _ ∧ _
  unfold dataEnd
  rw [h]
  dsimp only
  by_cases hfd : st.tempfd < 0
  · obtain ⟨st', heq, hlog⟩ := response_eq false st
    rw [if_pos hfd]
    exact ⟨st', heq, fun h => absurd hfd (by omega), Or.inl hlog⟩
  · obtain ⟨hopen, hlog⟩ := filecopy_log sys st
    rw [if_neg hfd]
    split
    · exact ⟨_, rfl, fun _ => hopen, hlog⟩
    · obtain ⟨st', heq, hext⟩ := response_eq true (filecopy sys st).2
      exact ⟨st', heq, fun _ hd hs => (hopen hd hs).trans hext,
        hlog.imp (fun h => h.trans hext) fun h => ⟨h.1, h.2.trans hext⟩⟩

theorem pieces_written (l : List Piece) {st : St} (h : st.parttype = .filedata) :
    (∃ temp, Passes sys (l.map .data) st { st with
        temp := temp, filedata := st.filedata || decide (l.flatMap Piece.bytes ≠ []) }) ∨
      (∃ st', Stops sys (l.map .data) st st' ∧ Extends st.log st'.log) ∧ ¬Permits sys := by
  induction l generalizing st with
  | nil =>
    refine Or.inl ⟨st.temp, ?_⟩
    simpa using Passes.nil st
  | cons p l ih =>
    have hone : callback sys (.data p) st = if sys.write st.temp p.bytes then
        (0, { st with temp := st.temp ++ p.bytes, filedata := st.filedata || p.bytes ≠ [] })
        else response false st := by
      obtain ⟨_, parttype, _⟩ := st
      obtain rfl : parttype = .filedata := h
      rfl
    cases hwrite : sys.write st.temp p.bytes with
    | false =>
      obtain ⟨st', heq, hlog⟩ := response_eq false st
      rw [hwrite, if_neg Bool.false_ne_true, heq] at hone
      refine Or.inr ⟨⟨st', (Stops.single hone).append (l.map .data), hlog⟩, fun hperm => ?_⟩
      rw [hperm.write] at hwrite
      cases hwrite
    | true =>
      rw [hwrite, if_pos rfl] at hone
      have hnext : ({ st with
          temp := st.temp ++ p.bytes, filedata := st.filedata || p.bytes ≠ [] } : St).parttype =
            .filedata := h
      rcases ih hnext with
        ⟨temp, hpass⟩ | ⟨⟨st', hstop, hlog⟩, hperm⟩
      · refine Or.inl ⟨temp, ?_⟩
        have hpass := (Passes.single hone).cons hpass
        have hdata : ((st.filedata || decide (p.bytes ≠ [])) ||
            decide (l.flatMap Piece.bytes ≠ [])) =
              (st.filedata || decide ((p :: l).flatMap Piece.bytes ≠ [])) := by
          rw [Bool.or_assoc, List.flatMap_cons]
          congr 1
          simp only [ne_eq, List.append_eq_nil_iff, not_and_or, Bool.decide_or]
        dsimp only at hpass
        rwa [hdata] at hpass
      · exact Or.inr ⟨⟨st', (Passes.single hone).stops hstop, hlog⟩, hperm⟩

/-- A file part opens the target at most, with a session id, a name and data. -/
theorem file_part (p : Part) (hp : p.type = .filedata) {ps : List Part} {st : St}
    (h : Ready ps st) : ∃ st', Stops sys p.callbacks st st' ∧
      (Permits sys → st.sessionid ≠ none → st.filename ≠ none → p.content ≠ [] →
        ∃ name, Extends (st.log ++ [.openTarget name]) st'.log) ∧
      (Extends st.log st'.log ∨ st.sessionid ≠ none ∧ st.filename ≠ none ∧ p.content ≠ [] ∧
        ∃ name, Extends (st.log ++ [.openTarget name]) st'.log) := by
  obtain ⟨b, hb⟩ := headers_pass sys p.headers st
  rw [h.parttype] at hb
  have hcallbacks : p.callbacks = (p.headers.flatMap Header.callbacks ++ [.headersComplete]) ++
      ((p.pieces ++ [p.lastPiece]).map .data ++ [.dataEnd]) := by
    simp [Part.callbacks]
  set s0 : St := { st with isContentDisposition := b, parttype := .filedata } with hs0
  rw [Part.type] at hp
  rw [hp] at hb
  rw [hcallbacks]
  have hbegin : callback sys .headersComplete s0 =
      if st.sessionid = none then response false s0
      else if st.filename = none then response false s0
      else if sys.mkstemp < 0 then response false { s0 with tempfd := sys.mkstemp, temp := [] }
      else (0, { s0 with tempfd := sys.mkstemp, temp := [] }) := rfl
  by_cases hsession : st.sessionid = none
  · obtain ⟨st', heq, hlog⟩ := response_eq false s0
    rw [if_pos hsession, heq] at hbegin
    exact ⟨st', (hb.stops (Stops.single hbegin)).append _, fun _ h => absurd hsession h,
      Or.inl hlog⟩
  rw [if_neg hsession] at hbegin
  by_cases hname : st.filename = none
  · obtain ⟨st', heq, hlog⟩ := response_eq false s0
    rw [if_pos hname, heq] at hbegin
    exact ⟨st', (hb.stops (Stops.single hbegin)).append _, fun _ _ h => absurd hname h,
      Or.inl hlog⟩
  rw [if_neg hname] at hbegin
  by_cases hfd : sys.mkstemp < 0
  · obtain ⟨st', heq, hlog⟩ := response_eq false { s0 with tempfd := sys.mkstemp, temp := [] }
    rw [if_pos hfd, heq] at hbegin
    exact ⟨st', (hb.stops (Stops.single hbegin)).append _,
      fun hperm => absurd hperm.mkstemp (by omega), Or.inl hlog⟩
  rw [if_neg hfd] at hbegin
  have hstart := hb.append (Passes.single hbegin)
  have hcontent : (p.pieces ++ [p.lastPiece]).flatMap Piece.bytes = p.content := by
    simp [Part.content]
  have hfile : ({ s0 with tempfd := sys.mkstemp, temp := [] } : St).parttype = .filedata := rfl
  rcases pieces_written sys (p.pieces ++ [p.lastPiece]) hfile with
    ⟨temp, hpass⟩ | ⟨⟨st', hstop, hlog⟩, hperm⟩
  · rw [hcontent] at hpass
    set s1 : St := { s0 with
      tempfd := sys.mkstemp
      temp := temp
      filedata := st.filedata || decide (p.content ≠ []) } with hs1
    have hfile' : s1.parttype = .filedata := rfl
    have hdata : s1.filedata = true ↔ p.content ≠ [] := by
      rw [hs1]
      simp [h.filedata]
    obtain ⟨st', hend, hopen, hlog⟩ := dataEnd_log sys hfile'
    refine ⟨st', hstart.stops (hpass.stops (Stops.single hend)), ?_, ?_⟩
    · intro hperm _ _ hne
      exact ⟨_, hopen hperm.mkstemp (hdata.mpr hne) hperm.lseek⟩
    · refine hlog.imp id fun h => ?_
      exact ⟨hsession, hname, hdata.mp h.1, _, h.2⟩
  · exact ⟨st', hstart.stops (hstop.append _), fun h => absurd h hperm, Or.inl hlog⟩

/-- Callbacks of a part without its end do not open the target. -/
theorem unfinished_log (es : List Event) (hopen : .dataEnd ∉ es) (st : St) :
    Extends st.log (runCallbacks sys es st).2.log := by
  induction es generalizing st with
  | nil => exact Extends.refl _
  | cons e es ih =>
    rw [List.mem_cons, not_or] at hopen
    have hone : Extends st.log (callback sys e st).2.log := by
      cases e with
      | headerField p => exact Extends.refl _
      | headerValue p => exact Extends.refl _
      | headersComplete =>
        change Extends st.log (dataBegin sys st).2.log
        unfold dataBegin
        split
        · split
          · exact response_log _ _
          split
          · exact response_log _ _
          dsimp only
          split
          · exact response_log _ { st with tempfd := sys.mkstemp, temp := [] }
          · exact Extends.refl _
        · exact Extends.refl _
      | data p =>
        change Extends st.log (dataPiece sys p st).2.log
        unfold dataPiece
        split
        · exact Extends.refl _
        · exact Extends.refl _
        · exact Extends.refl _
        · split
          · exact Extends.refl _
          · exact response_log _ _
        · exact Extends.refl _
      | dataEnd => exact absurd rfl hopen.1
    rw [runCallbacks]
    split
    · exact hone
    · exact hone.trans (ih hopen.2 _)

/-- What was asked for in front of the first file part. -/
def askedFor (r : Request) : List Action := r.sessionParts.map fun p => .access p.kept true

/-- An upload opens the target at most once, behind the questions. -/
theorem upload_log (r : Request) :
    (Permits sys → r.HasUpload →
        ∃ name, Extends (askedFor r ++ [.openTarget name]) (upload sys r).log) ∧
      (NoOpen (upload sys r).log ∨ r.HasUpload ∧
        ∃ name, Extends (askedFor r ++ [.openTarget name]) (upload sys r).log) := by
  have hbefore : ∀ p ∈ r.beforeFile, p.type ≠ .filedata := by
    intro p hp
    rw [Request.beforeFile] at hp
    have h := List.mem_takeWhile_imp hp
    exact of_decide_eq_true h
  have hsplit : r.callbacks = r.beforeFile.flatMap Part.callbacks ++
      ((r.complete.dropWhile fun p => p.type ≠ .filedata).flatMap Part.callbacks ++
        r.unfinished) := by
    rw [Request.callbacks, ← List.append_assoc, ← List.flatMap_append, Request.beforeFile,
      List.takeWhile_append_dropWhile]
  rw [upload, hsplit]
  rcases parts_ready sys r.beforeFile hbefore Ready.start with
    ⟨st, hpass, hready⟩ | ⟨⟨st, hstop, hno⟩, hperm⟩
  · rw [List.nil_append] at hready
    have hlog : st.log = askedFor r := hready.log
    rw [hpass]
    cases hrest : r.complete.dropWhile fun p => p.type ≠ .filedata with
    | nil =>
      refine ⟨fun _ h => ?_, Or.inl ?_⟩
      · obtain ⟨⟨p, hp, _⟩, _⟩ := h
        rw [hrest] at hp
        cases hp
      · exact (unfinished_log sys _ r.unfinished_open st).noOpen hready.noOpen
    | cons p rest =>
      have hp : p.type = .filedata := by
        have := List.head?_dropWhile_not (fun p : Part => decide (p.type ≠ .filedata)) r.complete
        rw [hrest] at this
        simpa using this
      obtain ⟨st', hstop, hopen, hcases⟩ := file_part sys p hp hready
      rw [List.flatMap_cons, List.append_assoc, hstop, ← hlog]
      refine ⟨fun hperm h => ?_, hcases.imp (fun h => h.noOpen hready.noOpen) fun h => ?_⟩
      · obtain ⟨⟨q, hq, hne⟩, hs, hn⟩ := h
        rw [hrest] at hq
        obtain rfl := Option.some.inj hq
        exact hopen hperm (hready.sessionid.mpr hs) (hready.filename.mpr hn) hne
      · obtain ⟨hs, hn, hne, hopened⟩ := h
        refine ⟨⟨⟨p, ?_, hne⟩, hready.sessionid.mp hs, hready.filename.mp hn⟩, hopened⟩
        rw [hrest]
        rfl
  · rw [hstop]
    exact ⟨fun h => absurd h hperm, Or.inl hno⟩

/-- What stands in front of the only opening. -/
theorem before_open {asked log before after : List Action} {name name' : List Byte}
    (hasked : NoOpen asked) (h : Extends (asked ++ [.openTarget name]) log)
    (heq : log = before ++ .openTarget name' :: after) : before = asked := by
  obtain ⟨tail, htail, rfl⟩ := h
  rw [List.append_assoc, List.singleton_append] at heq
  rcases List.append_eq_append_iff.mp heq with ⟨l, rfl, hl⟩ | ⟨l, rfl, hl⟩
  · cases l with
    | nil => exact List.append_nil _
    | cons a l =>
      obtain ⟨_, rfl⟩ := List.cons.inj hl
      have := htail (.openTarget name') (by simp)
      cases this
  · cases l with
    | nil => exact (List.append_nil _).symm
    | cons a l =>
      obtain ⟨rfl, _⟩ := List.cons.inj hl
      have := hasked (.openTarget name') (by simp)
      cases this

theorem askedFor_noOpen (r : Request) : NoOpen (askedFor r) := by
  intro a ha
  obtain ⟨p, _, rfl⟩ := List.mem_map.mp ha
  rfl

theorem accesses_askedFor (r : Request) :
    accesses (askedFor r) = r.sessionParts.map fun p => (p.kept, true) := by
  rw [accesses, askedFor, List.filterMap_map]
  exact congrFun List.filterMap_eq_map' _

/-- A request is authorised whatever the session daemon and the file system answer,
exactly when each session id in front of its file part comes in one piece; requests that
cannot lead to an upload are authorised in any case. -/
theorem upload_authorised_iff (r : Request) :
    (∀ sys, Authorised r (upload sys r).log) ↔
      (r.HasUpload → ∀ p ∈ r.sessionParts, p.Whole) := by
  constructor
  · intro h hup p hp
    set sys : System := ⟨fun _ _ => true, 0, fun _ _ => true, 0, 0, fun _ _ => true, fun _ => 0⟩
    have hperm : Permits sys := ⟨fun _ _ => rfl, Int.le_refl _, fun _ _ => rfl, Int.le_refl _⟩
    obtain ⟨name, tail, _, hlog⟩ := (upload_log sys r).1 hperm hup
    rw [List.append_assoc, List.singleton_append] at hlog
    obtain ⟨_, hasked⟩ := h sys _ name tail hlog
    rw [accesses_askedFor] at hasked
    have heq := List.map_inj_left.mp hasked p hp
    exact congrArg Prod.fst heq
  · intro h sys before name after heq
    rcases (upload_log sys r).2 with hno | ⟨hup, name', hext⟩
    · rw [heq] at hno
      have := hno (.openTarget name) (by simp)
      cases this
    · obtain rfl := before_open (askedFor_noOpen r) hext heq
      obtain ⟨_, ⟨p, hp, hs⟩, _⟩ := id hup
      have hmem : p ∈ r.sessionParts := List.mem_filter.mpr ⟨hp, decide_eq_true hs⟩
      refine ⟨List.ne_nil_of_mem hmem, ?_⟩
      rw [accesses_askedFor]
      exact List.map_congr_left fun q hq => congrArg (·, true) (h hup q hq)

/-- A part with the name and the pieces; the values of the headers go on behind a quote. -/
def namedPart (name : List Byte) (pieces : List (List Byte)) (lastPiece : List Byte) : Part where
  headers := [{
    field := []
    lastField := ⟨contentDisposition, [0x3a]⟩
    value := [⟨formData ++ [0x3b, 0x20] ++ nameIs ++ name ++ [0x22], [0x0d]⟩] }]
  pieces := pieces.map (⟨·, [0x0d]⟩)
  lastPiece := ⟨lastPiece, [0x0d]⟩

/-- The session id "ab" in two pieces, a file name and a file of one byte. -/
def splitRequest : Request where
  complete := [
    namedPart [0x73, 0x65, 0x73, 0x73, 0x69, 0x6f, 0x6e, 0x69, 0x64] [[0x61]] [0x62],
    namedPart [0x66, 0x69, 0x6c, 0x65, 0x6e, 0x61, 0x6d, 0x65] [] [0x66],
    namedPart [0x66, 0x69, 0x6c, 0x65, 0x64, 0x61, 0x74, 0x61] [] [0x78]]
  unfinished := []
  unfinished_open := List.not_mem_nil

/-- A daemon that knows the session "b" only. -/
def oneSession : System where
  access _ sid := sid == [0x62]
  mkstemp := 3
  write _ _ := true
  lseek := 0
  openTarget := 4
  writeTarget _ _ := true
  chmod _ := 0

/-- The target is opened though the id sent was never asked for. -/
theorem split_session_opens :
    (upload oneSession splitRequest).log = [.access [0x62] true, .openTarget [0x66]] ∧
      ¬Authorised splitRequest (upload oneSession splitRequest).log := by
  have hlog : (upload oneSession splitRequest).log =
      [.access [0x62] true] ++ .openTarget [0x66] :: [] := by
    decide +kernel
  refine ⟨hlog, fun h => ?_⟩
  obtain ⟨_, hasked⟩ := h _ _ _ hlog
  exact absurd hasked (by decide +kernel)

end Iot7688.CgiUpload
