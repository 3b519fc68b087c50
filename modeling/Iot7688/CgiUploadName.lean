import Iot7688.CgiUpload

/-!
The values of an upload. The name of a part selects a type when it agrees with one over its
own length: it may be cut short, even to nothing. It and the mode are read without regard to
the end of the piece. What is asked for, opened and set comes from the last piece of a part,
the file contents from all pieces.
-/
namespace Iot7688.CgiUpload

open Lib

/-- The piece holds a name parameter: form-data, blanks and semicolons, then the name in
quotes. -/
def NameParam (p : Piece) (name : List Byte) : Prop :=
  ∃ form seps key rest, p.bytes = form ++ seps ++ key ++ name ++ 0x22 :: rest ∧
    form.map tolower = formData ∧ (∀ c ∈ seps, c = 0x20 ∨ c = 0x3b) ∧ key.map tolower = nameIs ∧
    0x22 ∉ name

/-- A header value sets the part type t, whatever it was. -/
def Selects (isContentDisposition : Bool) (p : Piece) (t : PartType) : Prop :=
  ∀ old, headerValue isContentDisposition p old = t

/-- The part type is set by a name parameter that is one of the names. -/
def NamedExactly (isContentDisposition : Bool) (p : Piece) : Prop :=
  ∀ t, Selects isContentDisposition p t → ∃ name, NameParam p name ∧ (name, t) ∈ parts

/-- The text behind the opening quote, where header_value finds one. -/
def quotedText (p : Piece) : Option (List Byte) :=
  if p.bytes.length < 10 ∨ !sameUpTo tolower 9 p.text formData then none
  else
    let skipped := ((p.text.drop 9).takeWhile fun c => c == 0x20 || c == 0x3b).length
    let data := p.text.drop (9 + skipped)
    let len := (p.bytes.length - 9 + (2 ^ 32 - skipped)) % 2 ^ 32
    if len < 8 ∨ !sameUpTo tolower 6 data nameIs then none
    else
      let data := data.drop 6
      let i := (data.takeWhile (· != 0x22)).length
      if i < data.length ∧ i ≤ len - 6 then some data else none

/-- The name that header_value finds, the text up to the next quote. -/
def foundName (p : Piece) : Option (List Byte) :=
  (quotedText p).map fun data => data.takeWhile (· != 0x22)

/-- A name agrees with the name of a part as far as strncmp compares them. -/
def Agrees (name part : List Byte) : Prop := name <+: part ∨ part ++ [0] <+: name

/-- The name that is found in the value of a Content-Disposition is the name of a part and
stands in the piece, or does not agree with one. -/
def NameOk (isContentDisposition : Bool) (p : Piece) : Prop :=
  isContentDisposition = true → ∀ name, foundName p = some name →
    NameParam p name ∧ (∃ t, (name, t) ∈ parts) ∨ ∀ q ∈ parts, ¬Agrees name q.1

theorem parts_noNul {q : List Byte × PartType} (hq : q ∈ parts) : (0 : Byte) ∉ q.1 := by
  revert q
  decide

theorem sameUpTo_take (f : Byte → Byte) (n : ℕ) (a b : List Byte) :
    sameUpTo f n a b = sameUpTo f n (a.take n) b := by
  induction n generalizing a b with
  | zero => rfl
  | succ n ih =>
    cases a with
    | nil => rfl
    | cons x a =>
      rw [sameUpTo, sameUpTo, List.take_succ_cons, List.headD_cons, List.headD_cons, List.tail_cons,
        List.tail_cons, ih a]

/-- strncmp over the whole of the first string. -/
theorem sameUpTo_iff {part : List Byte} (hpart : (0 : Byte) ∉ part) (name : List Byte) :
    sameUpTo id name.length name part = true ↔ Agrees name part := by
  unfold Agrees
  induction name generalizing part with
  | nil => exact iff_of_true rfl (.inl (List.nil_prefix))
  | cons x name ih =>
    rw [List.length_cons, sameUpTo, List.headD_cons, List.tail_cons, id, id]
    cases part with
    | nil =>
      rw [List.headD_nil]
      by_cases hx : x = 0
      · subst hx
        exact iff_of_true rfl (.inr ⟨name, rfl⟩)
      · rw [if_pos hx]
        refine iff_of_false Bool.false_ne_true ?_
        rintro (h | ⟨_, h⟩)
        · exact List.cons_ne_nil _ _ (List.prefix_nil.mp h)
        · exact hx (List.cons.inj h).1.symm
    | cons y part =>
      rw [List.mem_cons, not_or] at hpart
      rw [List.headD_cons, List.tail_cons]
      by_cases hxy : x = y
      · subst hxy
        rw [if_neg (not_not.mpr rfl), if_neg (fun h => hpart.1 h.symm), ih hpart.2,
          List.cons_prefix_cons, List.cons_append, List.cons_prefix_cons]
        simp
      · rw [if_pos hxy, List.cons_prefix_cons, List.cons_append, List.cons_prefix_cons]
        exact iff_of_false Bool.false_ne_true fun h =>
          h.elim (fun h => hxy h.1) fun h => hxy h.1.symm

section

variable {p : Piece} {name : List Byte} {b : Bool} {t t' : PartType}

/-- The type behind the names that agree; the last one counts. -/
def selectType (name : List Byte) (old : PartType) : PartType :=
  parts.foldl (fun t q => if sameUpTo id name.length name q.1 then q.2 else t) old

theorem takeWhile_take (f : Byte → Bool) (l : List Byte) :
    l.take (l.takeWhile f).length = l.takeWhile f :=
  (List.prefix_iff_eq_take.mp (List.takeWhile_prefix f)).symm

theorem headerValue_eq (b : Bool) (p : Piece) (old : PartType) : headerValue b p old =
    if b then (foundName p).elim old fun name => selectType name old else old := by
  cases b with
  | false => rfl
  | true =>
    rw [if_pos rfl]
    unfold headerValue foundName quotedText
    rw [if_neg (by decide)]
    split
    next => rfl
    next =>
      dsimp only
      split
      next => rfl
      next =>
        split
        next =>
          rw [Option.map_some, Option.elim_some, selectType]
          refine List.foldl_ext _ _ _ fun t q _ => ?_
          rw [sameUpTo_take, takeWhile_take]
        next => rfl

theorem foldl_none {l : List (List Byte × PartType)} (h : ∀ q ∈ l, ¬Agrees name q.1)
    (hl : ∀ q ∈ l, (0 : Byte) ∉ q.1) (old : PartType) :
    l.foldl (fun t q => if sameUpTo id name.length name q.1 then q.2 else t) old = old := by
  induction l generalizing old with
  | nil => rfl
  | cons q l ih =>
    obtain ⟨hq, h⟩ := List.forall_mem_cons.mp h
    obtain ⟨hql, hl⟩ := List.forall_mem_cons.mp hl
    rw [List.foldl_cons, if_neg (mt (sameUpTo_iff hql name).mp hq), ih h hl]

theorem foldl_const {l : List (List Byte × PartType)} (h : ∃ q ∈ l, Agrees name q.1)
    (hl : ∀ q ∈ l, (0 : Byte) ∉ q.1) (old old' : PartType) :
    l.foldl (fun t q => if sameUpTo id name.length name q.1 then q.2 else t) old =
      l.foldl (fun t q => if sameUpTo id name.length name q.1 then q.2 else t) old' := by
  induction l generalizing old old' with
  | nil => exact absurd h (by simp)
  | cons q l ih =>
    obtain ⟨hql, hl⟩ := List.forall_mem_cons.mp hl
    rw [List.foldl_cons, List.foldl_cons]
    by_cases hq : Agrees name q.1
    · rw [if_pos ((sameUpTo_iff hql name).mpr hq), if_pos ((sameUpTo_iff hql name).mpr hq)]
    · rw [if_neg (mt (sameUpTo_iff hql name).mp hq), if_neg (mt (sameUpTo_iff hql name).mp hq)]
      obtain ⟨q', hq', hagree⟩ := h
      obtain rfl | hmem := List.mem_cons.mp hq'
      · exact absurd hagree hq
      · exact ih ⟨q', hmem, hagree⟩ hl old old'

theorem selectType_exact (h : (name, t) ∈ parts) (old : PartType) : selectType name old = t := by
  have hall : ∀ q ∈ parts, selectType q.1 .unknown = q.2 := by decide
  have hagrees : ∃ q ∈ parts, Agrees name q.1 := ⟨(name, t), h, .inl (List.prefix_refl name)⟩
  exact (foldl_const hagrees (fun q hq => parts_noNul hq) old .unknown).trans (hall (name, t) h)

/-- A name parameter is what header_value finds, if it finds one. -/
theorem foundName_unique {found : List Byte} (hparam : NameParam p name) (hfound : foundName p = some found) :
    found = name := by
  obtain ⟨form, seps, key, rest, hbytes, hform, hseps, hkey, hname⟩ := hparam
  have hlen : form.length = 9 := by
    rw [← List.length_map (f := tolower), hform]
    rfl
  have hkeylen : key.length = 6 := by
    rw [← List.length_map (f := tolower), hkey]
    rfl
  have hdrop : p.text.drop 9 = seps ++ (key ++ (name ++ 0x22 :: (rest ++ p.behind))) := by
    rw [Piece.text, hbytes, ← hlen]
    simp
  have hkeep (c : Byte) (hc : tolower c = 0x6e) : (c == 0x20 || c == 0x3b) = false := by
    refine Bool.eq_false_iff.mpr fun hblank => ?_
    obtain h | h := Bool.or_eq_true_iff.mp hblank
    · rw [beq_iff_eq.mp h] at hc
      exact absurd hc (by decide)
    · rw [beq_iff_eq.mp h] at hc
      exact absurd hc (by decide)
  have hskip : (p.text.drop 9).takeWhile (fun c => c == 0x20 || c == 0x3b) = seps := by
    have hseps' : ∀ c ∈ seps, (c == 0x20 || c == 0x3b) = true := fun c hc => by
      rcases hseps c hc with rfl | rfl <;> rfl
    rw [hdrop, List.takeWhile_append_of_pos hseps']
    cases key with
    | nil => exact absurd hkeylen (by decide)
    | cons c key =>
      rw [List.cons_append, List.takeWhile_cons_of_neg, List.append_nil]
      rw [hkeep c (List.cons.inj hkey).1]
      exact Bool.false_ne_true
  have hdata : ((p.text.drop (9 + seps.length)).drop 6) = name ++ 0x22 :: (rest ++ p.behind) := by
    rw [← List.drop_drop, hdrop, List.drop_left, ← hkeylen, List.drop_left]
  have hend : (name ++ 0x22 :: (rest ++ p.behind)).takeWhile (· != 0x22) = name := by
    rw [List.takeWhile_append_of_pos, List.takeWhile_cons_of_neg, List.append_nil]
    · decide
    · exact fun c hc => bne_iff_ne.mpr fun h => hname (h ▸ hc)
  unfold foundName quotedText at hfound
  rw [hskip] at hfound
  split at hfound
  · exact absurd hfound (by simp)
  · dsimp only at hfound
    split at hfound
    · exact absurd hfound (by simp)
    · rw [hdata, hend] at hfound
      split at hfound
      · rw [Option.map_some, hend] at hfound
        exact (Option.some.inj hfound).symm
      · exact absurd hfound (by simp)

theorem namedExactly_iff : NamedExactly b p ↔ NameOk b p := by
  have hkeep (hid : ∀ old, headerValue b p old = old) (t : PartType) : ¬Selects b p t := by
    intro hsel
    have hne : PartType.unknown ≠ .filedata := by decide
    exact hne (((hid .unknown).symm.trans (hsel .unknown)).trans
      ((hid .filedata).symm.trans (hsel .filedata)).symm)
  constructor
  · rintro h rfl name hfound
    have hvalue (old : PartType) : headerValue true p old = selectType name old := by
      rw [headerValue_eq, hfound]
      rfl
    by_cases hagree : ∃ q ∈ parts, Agrees name q.1
    · have hsel : Selects true p (selectType name .unknown) := fun old =>
        (hvalue old).trans (foldl_const hagree (fun q hq => parts_noNul hq) old .unknown)
      obtain ⟨name', hparam, hpart⟩ := h _ hsel
      obtain rfl := foundName_unique hparam hfound
      exact .inl ⟨hparam, _, hpart⟩
    · exact .inr fun q hq hag => hagree ⟨q, hq, hag⟩
  · intro h t hsel
    cases b with
    | false => exact absurd hsel (hkeep (fun old => rfl) t)
    | true =>
      cases hfound : foundName p with
      | none =>
        refine absurd hsel (hkeep (fun old => ?_) t)
        rw [headerValue_eq, hfound]
        rfl
      | some name =>
        have hvalue (old : PartType) : headerValue true p old = selectType name old := by
          rw [headerValue_eq, hfound]
          rfl
        rcases h rfl name hfound with ⟨hparam, t', hpart⟩ | hno
        · have ht : t' = t := by rw [← hsel .unknown, hvalue, selectType_exact hpart]
          exact ⟨name, hparam, ht ▸ hpart⟩
        · exact absurd hsel (hkeep (fun old => (hvalue old).trans
            (foldl_none hno (fun q hq => parts_noNul hq) old)) t)

end

def isBlank (c : Byte) : Bool := c == 0x20 || (0x09 ≤ c && c ≤ 0x0d)

def isOctal (c : Byte) : Bool := 0x30 ≤ c && c ≤ 0x37

def skipSign (text : List Byte) : List Byte :=
  if text.head? = some 0x2b ∨ text.head? = some 0x2d then text.tail else text

/-- What is left when strtoul has read the number. -/
def numberEnd (text : List Byte) : List Byte := (skipSign (text.dropWhile isBlank)).dropWhile isOctal

/-- How many bytes strtoul looks at: the number and the byte that ends it. -/
def strtoulReads (text : List Byte) : ℕ := text.length - (numberEnd text).length + 1

/-- How many bytes data_cb reads of a piece; the session id, the name and the data are
copied by their length. -/
def dataReads (t : PartType) (p : Piece) : ℕ :=
  match t with
  | .filemode => strtoulReads p.text
  | .unknown => 0
  | _ => p.bytes.length

/-- A byte of the piece ends the number. -/
def EndsInside (p : Piece) : Prop := numberEnd p.bytes ≠ []

/-- A part of a scanner. It stops in a text, or goes on in what follows. -/
structure Scans (f : List Byte → List Byte) : Prop where
  stops : ∀ a b, f a ≠ [] → f (a ++ b) = f a ++ b
  runs : ∀ a b, f a = [] → (f (a ++ b)).length ≤ b.length

theorem scans_dropWhile (q : Byte → Bool) : Scans (List.dropWhile q) where
  stops a b h := by rw [List.dropWhile_append, if_neg (by simpa using h)]
  runs a b h := by
    rw [List.dropWhile_append, if_pos (by simpa using h)]
    exact (List.dropWhile_sublist q).length_le

theorem scans_skipSign : Scans skipSign where
  stops a b h := by
    cases a with
    | nil => exact absurd rfl h
    | cons c a =>
      unfold skipSign
      rw [List.cons_append, List.head?_cons, List.head?_cons]
      split
      · rfl
      · rfl
  runs a b h := by
    unfold skipSign at h ⊢
    cases a with
    | nil =>
      rw [List.nil_append]
      split
      · rw [List.length_tail]
        exact Nat.sub_le _ _
      · rfl
    | cons c a =>
      rw [List.cons_append, List.head?_cons]
      rw [List.head?_cons] at h
      split at h
      next hsign =>
        rw [if_pos hsign]
        rw [List.tail_cons] at h ⊢
        rw [h, List.nil_append]
      next => exact absurd h (List.cons_ne_nil c a)

theorem Scans.comp {f g : List Byte → List Byte} (hg : Scans g) (hf : Scans f) (hnil : g [] = [])
    (hshort : ∀ a, (g a).length ≤ a.length) : Scans fun a => g (f a) where
  stops a b h := by
    have hfa : f a ≠ [] := fun hno => h (by rw [hno, hnil])
    rw [hf.stops a b hfa, hg.stops _ b h]
  runs a b h := by
    by_cases hfa : f a = []
    · exact (hshort _).trans (hf.runs a b hfa)
    · rw [hf.stops a b hfa]
      exact hg.runs _ b h

theorem skipSign_length (a : List Byte) : (skipSign a).length ≤ a.length := by
  unfold skipSign
  split
  · rw [List.length_tail]
    exact Nat.sub_le _ _
  · rfl

theorem scans_numberEnd : Scans numberEnd :=
  (scans_dropWhile isOctal).comp
    (scans_skipSign.comp (scans_dropWhile isBlank) rfl skipSign_length) rfl
    fun _ => (List.dropWhile_sublist isOctal).length_le

theorem numberEnd_length (a : List Byte) : (numberEnd a).length ≤ a.length :=
  ((List.dropWhile_sublist isOctal).length_le).trans
    ((skipSign_length _).trans (List.dropWhile_sublist isBlank).length_le)

/-- strtoul stays inside of a piece that ends the number. -/
theorem strtoulReads_le_iff (p : Piece) : strtoulReads p.text ≤ p.bytes.length ↔ EndsInside p := by
  have hshort := numberEnd_length p.bytes
  unfold strtoulReads EndsInside Piece.text
  rw [List.length_append]
  constructor
  · intro h hno
    have hrun := scans_numberEnd.runs p.bytes p.behind hno
    omega
  · intro h
    have hpos := List.length_pos_iff.mpr h
    rw [scans_numberEnd.stops p.bytes p.behind h, List.length_append]
    omega

namespace Request

/-- The parts before the file with a type. -/
def ofType (r : Request) (t : PartType) : List Part := r.beforeFile.filter fun p => p.type = t

/-- The file part. -/
def filePart (r : Request) : Option Part :=
  (r.complete.dropWhile fun p => p.type ≠ .filedata).head?

end Request

/-- The values that a run uses are those of the complete parts. -/
structure Values (sys : System) (r : Request) : Prop where
  session : (accesses (upload sys r).log).map Prod.fst <+: (r.ofType .sessionid).map Part.content
  name : ∀ n, .openTarget n ∈ (upload sys r).log → (r.ofType .filename).getLast?.map Part.content = some n
  mode : ∀ n, .openTarget n ∈ (upload sys r).log → (upload sys r).filemode =
    (r.ofType .filemode).getLast?.elim 0o600 fun p => strtoul8 p.content
  contents : ∀ n, .openTarget n ∈ (upload sys r).log → ∃ p, r.filePart = some p ∧
    (upload sys r).temp = p.content ∧ (upload sys r).target <+: p.content ∧
    (0 ≤ sys.openTarget → (∀ target bytes, sys.writeTarget target bytes = true) →
      (upload sys r).target = p.content)

/-- A callback that a run comes to, and the state then. -/
def Reached (sys : System) (r : Request) (e : Event) (st : St) : Prop :=
  ∃ before after, r.callbacks = before ++ e :: after ∧ Passes sys before St.start st

/-- A callback reads data within its length, and takes a type from an exact name only. -/
def StepOk : Event → St → Prop
  | .headerValue p, st => NamedExactly st.isContentDisposition p
  | .data p, st => dataReads st.parttype p ≤ p.bytes.length
  | _, _ => True

/-- The condition on a callback: the name that is found is one of the names or agrees with
none, and a file mode ends in its piece. -/
def StepSafe : Event → St → Prop
  | .headerValue p, st => NameOk st.isContentDisposition p
  | .data p, st => st.parttype = .filemode → EndsInside p
  | _, _ => True

/-- The condition on the parts: a session id comes in one piece and without a NUL, and so
does the file name that counts; the last piece of the file mode that counts has the number
of the whole. -/
structure PartsSafe (r : Request) : Prop where
  session : ∀ p ∈ r.ofType .sessionid, p.Whole
  name : r.HasUpload → ∀ p ∈ (r.ofType .filename).getLast?, p.Whole
  mode : r.HasUpload → ∀ p ∈ (r.ofType .filemode).getLast?, strtoul8 p.lastPiece.text = strtoul8 p.content

theorem stepOk_iff (e : Event) (st : St) : StepOk e st ↔ StepSafe e st := by
  cases e with
  | headerValue p => exact namedExactly_iff
  | data p =>
    show dataReads st.parttype p ≤ p.bytes.length ↔ (st.parttype = .filemode → EndsInside p)
    cases st.parttype with
    | filemode => exact (strtoulReads_le_iff p).trans ⟨fun h _ => h, fun h => h rfl⟩
    | unknown => exact iff_of_true (Nat.zero_le _) fun h => PartType.noConfusion h
    | _ => exact iff_of_true le_rfl fun h => PartType.noConfusion h
  | _ => exact Iff.rfl

variable (sys : System)

/-- What the callbacks of a part leave, outside of file parts. -/
structure Ends (p : Part) (st st' : St) : Prop where
  filename : st'.filename = if p.type = .filename then some p.lastPiece.bytes else st.filename
  filemode : st'.filemode = if p.type = .filemode then strtoul8 p.lastPiece.text else st.filemode
  target : st'.target = st.target
  asked : (accesses st'.log).map Prod.fst =
    (accesses st.log).map Prod.fst ++ if p.type = .sessionid then [p.kept] else []

theorem accesses_append (a b : List Action) : accesses (a ++ b) = accesses a ++ accesses b :=
  List.filterMap_append

theorem response_fields (success : Bool) (st : St) : (response success st).2.filename = st.filename ∧
    (response success st).2.filemode = st.filemode ∧ (response success st).2.temp = st.temp ∧
    (response success st).2.target = st.target ∧
    accesses (response success st).2.log = accesses st.log := by
  unfold response
  split
  · exact ⟨rfl, rfl, rfl, rfl, rfl⟩
  · exact ⟨rfl, rfl, rfl, rfl, by rw [accesses_append]; exact List.append_nil _⟩

theorem passes_run {es : List Event} {st st' : St} (h : Passes sys es st st') :
    runCallbacks sys es st = (0, st') := by
  have hrun := h []
  rwa [List.append_nil] at hrun

theorem stops_run {es : List Event} {st st' : St} (h : Stops sys es st st') :
    (runCallbacks sys es st).2 = st' := by
  have hrun := h []
  rwa [List.append_nil] at hrun

theorem part_ends (p : Part) (hne : p.type ≠ .filedata) {st : St} (h : st.parttype = .unknown) :
    Ends p st (runCallbacks sys p.callbacks st).2 := by
  obtain ⟨b, hb⟩ := part_kept sys p hne h
  have hrun : (runCallbacks sys p.callbacks st).2 = (callback sys .dataEnd
      (St.keep p.type p.lastPiece { st with isContentDisposition := b, parttype := p.type })).2 := by
    rw [part_callbacks_eq, hb, runCallbacks]
    split
    · rfl
    · rfl
  rw [hrun]
  cases ht : p.type with
  | sessionid =>
    have hasked : (accesses (st.log ++ [.access p.kept (sys.access st.log p.kept)])).map Prod.fst =
        (accesses st.log).map Prod.fst ++ [p.kept] := by
      rw [accesses_append, List.map_append]
      rfl
    change Ends p st (dataEnd sys _).2
    unfold dataEnd
    dsimp only [St.keep]
    split
    next =>
      obtain ⟨hname, hmode, -, htarget, hlog⟩ := response_fields false { st with
        isContentDisposition := b
        parttype := .sessionid
        sessionid := some p.lastPiece.bytes
        log := st.log ++ [.access p.kept (sys.access st.log p.kept)] }
      exact ⟨by rw [ht]; exact hname, by rw [ht]; exact hmode, htarget,
        by rw [ht]; exact (congrArg (List.map Prod.fst) hlog).trans hasked⟩
    next => exact ⟨by rw [ht]; rfl, by rw [ht]; rfl, rfl, by rw [ht]; exact hasked⟩
  | filedata => exact absurd ht hne
  | _ => exact ⟨by rw [ht]; rfl, by rw [ht]; rfl, rfl, by rw [ht]; exact (List.append_nil _).symm⟩

/-- The parts before the file, as far as a run has come. -/
structure Kept (ps : List Part) (st : St) : Prop where
  filename : st.filename = (ps.filter fun p => p.type = .filename).getLast?.map (·.lastPiece.bytes)
  filemode : st.filemode = (ps.filter fun p => p.type = .filemode).getLast?.elim 0o600
    fun p => strtoul8 p.lastPiece.text
  target : st.target = []
  asked : (accesses st.log).map Prod.fst = (ps.filter fun p => p.type = .sessionid).map Part.kept

theorem Kept.start : Kept [] St.start := ⟨rfl, rfl, rfl, rfl⟩

theorem Kept.next {ps : List Part} {p : Part} {st st' : St} (h : Kept ps st) (hp : Ends p st st') :
    Kept (ps ++ [p]) st' where
  filename := by
    rw [hp.filename, List.filter_append]
    split
    next ht => simp [ht]
    next ht => simp [ht, h.filename]
  filemode := by
    rw [hp.filemode, List.filter_append]
    split
    next ht => simp [ht]
    next ht => simp [ht, h.filemode]
  target := hp.target.trans h.target
  asked := by
    rw [hp.asked, List.filter_append, h.asked]
    split
    next ht => simp [ht]
    next ht => simp [ht]

/-- A run through parts without a file comes to their end, or is ended by a refusal. -/
theorem parts_kept (l : List Part) (hne : ∀ p ∈ l, p.type ≠ .filedata) {ps : List Part} {st : St}
    (hready : Ready ps st) (hkept : Kept ps st) :
    (∃ st', Passes sys (l.flatMap Part.callbacks) st st' ∧ Ready (ps ++ l) st' ∧ Kept (ps ++ l) st') ∨
      ∃ st', Stops sys (l.flatMap Part.callbacks) st st' ∧ NoOpen st'.log ∧ ¬Permits sys ∧
        (accesses st'.log).map Prod.fst <+:
          ((ps ++ l).filter fun p => p.type = .sessionid).map Part.kept := by
  induction l generalizing ps st with
  | nil =>
    rw [List.append_nil]
    exact .inl ⟨st, Passes.nil st, hready, hkept⟩
  | cons p l ih =>
    obtain ⟨hp, hl⟩ := List.forall_mem_cons.mp hne
    have hends := part_ends sys p hp hready.parttype
    have hsplit : ps ++ p :: l = ps ++ [p] ++ l := by simp
    rw [List.flatMap_cons, hsplit]
    rcases part_ready sys p hp hready with ⟨st', hpass, hready'⟩ | ⟨⟨st', hstop, hno⟩, hperm⟩
    · rw [passes_run sys hpass] at hends
      rcases ih hl hready' (hkept.next hends) with
        ⟨st'', hpass', hready'', hkept''⟩ | ⟨st'', hstop, hno, hperm, hasked⟩
      · exact .inl ⟨st'', hpass.append hpass', hready'', hkept''⟩
      · exact .inr ⟨st'', hpass.stops hstop, hno, hperm, hasked⟩
    · rw [stops_run sys hstop] at hends
      refine .inr ⟨st', hstop.append _, hno, hperm, ?_⟩
      rw [(hkept.next hends).asked]
      exact ((List.prefix_append _ _).filter _).map _

/-- The copy has a first part of the file, and all of it when it comes to the end. -/
theorem copyLoop_spec (temp target : List Byte) :
    (∃ front, (copyLoop sys temp target).2 = target ++ front ∧ front <+: temp) ∧
      ((∀ target bytes, sys.writeTarget target bytes = true) →
        (copyLoop sys temp target).2 = target ++ temp) := by
  induction temp, target using copyLoop.induct sys with
  | case1 target =>
    rw [copyLoop, dif_pos rfl]
    exact ⟨⟨[], (List.append_nil _).symm, List.prefix_refl []⟩, fun _ => (List.append_nil _).symm⟩
  | case2 temp target hne hwrite ih =>
    rw [copyLoop, dif_neg hne, if_pos hwrite]
    obtain ⟨⟨front, hfront, hprefix⟩, hall⟩ := ih
    refine ⟨⟨temp.take 4096 ++ front, by rw [hfront, List.append_assoc], ?_⟩, fun h => ?_⟩
    · obtain ⟨tail, htail⟩ := hprefix
      exact ⟨tail, by rw [List.append_assoc, htail, List.take_append_drop]⟩
    · rw [hall h, List.append_assoc, List.take_append_drop]
  | case3 temp target hne hwrite =>
    rw [copyLoop, dif_neg hne, if_neg hwrite]
    exact ⟨⟨[], (List.append_nil _).symm, List.nil_prefix⟩, fun h => absurd (h _ _) hwrite⟩

/-- What the end of a run with a file leaves of the state after the headers. -/
structure FileEnds (content : List Byte) (st st' : St) : Prop where
  filename : st'.filename = st.filename
  filemode : st'.filemode = st.filemode
  asked : accesses st'.log = accesses st.log
  opened : ∀ n, .openTarget n ∈ st'.log → .openTarget n ∈ st.log ∨
    n = cstr (st.filename.getD []) ∧ st'.temp = content ∧ st'.target <+: content ∧
      (0 ≤ sys.openTarget → (∀ target bytes, sys.writeTarget target bytes = true) → st'.target = content)

theorem response_opened (success : Bool) (st : St) {n : List Byte}
    (h : .openTarget n ∈ (response success st).2.log) : .openTarget n ∈ st.log := by
  unfold response at h
  split at h
  · exact h
  · simpa using h

/-- An answer without opening the target. -/
theorem FileEnds.response {content : List Byte} (success : Bool) (st : St) :
    FileEnds sys content st (response success st).2 := by
  obtain ⟨hname, hmode, -, -, hlog⟩ := response_fields success st
  exact ⟨hname, hmode, hlog, fun n hn => .inl (response_opened success st hn)⟩

/-- An answer afterwards changes nothing. -/
theorem FileEnds.then_response {content : List Byte} {st st' : St} (h : FileEnds sys content st st')
    (success : Bool) : FileEnds sys content st (CgiUpload.response success st').2 := by
  obtain ⟨hname, hmode, htemp, htarget, hlog⟩ := response_fields success st'
  refine ⟨hname.trans h.filename, hmode.trans h.filemode, hlog.trans h.asked, fun n hn => ?_⟩
  rw [htemp, htarget]
  exact h.opened n (response_opened success st' hn)

theorem filecopy_ends {st : St} (htarget : st.target = []) :
    FileEnds sys st.temp st (filecopy sys st).2 := by
  unfold filecopy
  split
  · exact FileEnds.response sys false st
  split
  · exact FileEnds.response sys false st
  have hopened {n : List Byte} (hn : .openTarget n ∈ st.log ++ [.openTarget (cstr (st.filename.getD []))]) :
      .openTarget n ∈ st.log ∨ n = cstr (st.filename.getD []) := by simpa using hn
  have hasked : accesses (st.log ++ [.openTarget (cstr (st.filename.getD []))]) = accesses st.log := by
    rw [accesses_append]
    exact List.append_nil _
  obtain ⟨⟨front, hfront, hprefix⟩, hall⟩ := copyLoop_spec sys st.temp []
  rw [List.nil_append] at hfront hall
  have hcopied : FileEnds sys st.temp st { st with
      filefd := sys.openTarget
      log := st.log ++ [.openTarget (cstr (st.filename.getD []))]
      target := (copyLoop sys st.temp []).2 } :=
    ⟨rfl, rfl, hasked, fun n hn => (hopened hn).imp_right fun h =>
      ⟨h, rfl, hfront ▸ hprefix, fun _ hwrite => hall hwrite⟩⟩
  dsimp only
  split
  next hfd =>
    have hfailed : FileEnds sys st.temp st { st with
        filefd := sys.openTarget
        log := st.log ++ [.openTarget (cstr (st.filename.getD []))] } :=
      ⟨rfl, rfl, hasked, fun n hn => (hopened hn).imp_right fun h =>
        ⟨h, rfl, htarget ▸ List.nil_prefix, fun hopen => absurd hfd (Int.not_lt.mpr hopen)⟩⟩
    exact hfailed.then_response sys false
  next =>
    split
    · exact hcopied.then_response sys false
    split
    · exact hcopied.then_response sys false
    · exact hcopied

theorem dataEnd_ends {st : St} (hfile : st.parttype = .filedata) (htarget : st.target = []) :
    FileEnds sys st.temp st (dataEnd sys st).2 := by
  unfold dataEnd
  rw [hfile]
  dsimp only
  split
  · exact FileEnds.response sys false st
  split
  · exact filecopy_ends sys htarget
  · exact (filecopy_ends sys htarget).then_response sys true

/-- Two states with the same values. -/
structure Same (st st' : St) : Prop where
  filename : st'.filename = st.filename
  filemode : st'.filemode = st.filemode
  target : st'.target = st.target
  log : st'.log = st.log

theorem FileEnds.of_same {content : List Byte} {st s st' : St} (hsame : Same st s)
    (h : FileEnds sys content s st') : FileEnds sys content st st' := by
  obtain ⟨hname, hmode, -, hlog⟩ := hsame
  refine ⟨h.filename.trans hname, h.filemode.trans hmode, by rw [h.asked, hlog], fun n hn => ?_⟩
  rw [← hname, ← hlog]
  exact h.opened n hn

/-- The data pieces of a file part are all written, or the run ends. -/
theorem pieces_ends (l : List Piece) {st : St} (hfile : st.parttype = .filedata) :
    (∃ st', Passes sys (l.map .data) st st' ∧ st'.parttype = .filedata ∧ Same st st' ∧
        st'.temp = st.temp ++ l.flatMap Piece.bytes) ∨
      ∃ st', Stops sys (l.map .data) st st' ∧ ∀ content, FileEnds sys content st st' := by
  induction l generalizing st with
  | nil => exact .inl ⟨st, Passes.nil st, hfile, ⟨rfl, rfl, rfl, rfl⟩, (List.append_nil _).symm⟩
  | cons p l ih =>
    have hone : callback sys (.data p) st = if sys.write st.temp p.bytes then
        (0, { st with temp := st.temp ++ p.bytes, filedata := st.filedata || p.bytes ≠ [] })
        else response false st := by
      show dataPiece sys p st = _
      unfold dataPiece
      rw [hfile]
    cases hwrite : sys.write st.temp p.bytes with
    | false =>
      obtain ⟨st', heq, -⟩ := response_eq false st
      have hends (content : List Byte) := @FileEnds.response sys content false st
      rw [hwrite, if_neg Bool.false_ne_true, heq] at hone
      rw [heq] at hends
      exact .inr ⟨st', (Stops.single hone).append (l.map .data), hends⟩
    | true =>
      rw [hwrite, if_pos rfl] at hone
      have hsame : Same st { st with
          temp := st.temp ++ p.bytes, filedata := st.filedata || p.bytes ≠ [] } := ⟨rfl, rfl, rfl, rfl⟩
      rcases @ih { st with
          temp := st.temp ++ p.bytes, filedata := st.filedata || p.bytes ≠ [] } hfile with
        ⟨st', hpass, hfile', hsame', htemp⟩ | ⟨st', hstop, hends⟩
      · refine .inl ⟨st', (Passes.single hone).cons hpass, hfile', ?_, ?_⟩
        · exact ⟨hsame'.filename, hsame'.filemode, hsame'.target, hsame'.log⟩
        · rw [htemp, List.flatMap_cons, List.append_assoc]
      · exact .inr ⟨st', (Passes.single hone).stops hstop, fun content => (hends content).of_same sys hsame⟩

/-- A file part ends the run, with the values from before and the contents of the part. -/
theorem file_ends (p : Part) (hp : p.type = .filedata) {st : St} (hunknown : st.parttype = .unknown)
    (htarget : st.target = []) : ∃ st', Stops sys p.callbacks st st' ∧
      FileEnds sys p.content st st' := by
  obtain ⟨b, hb⟩ := headers_pass sys p.headers st
  rw [hunknown] at hb
  have hcallbacks : p.callbacks = (p.headers.flatMap Header.callbacks ++ [.headersComplete]) ++
      ((p.pieces ++ [p.lastPiece]).map .data ++ [.dataEnd]) := by
    simp [Part.callbacks]
  have hcontent : (p.pieces ++ [p.lastPiece]).flatMap Piece.bytes = p.content := by
    simp [Part.content]
  set s0 : St := { st with isContentDisposition := b, parttype := .filedata } with hs0
  rw [Part.type] at hp
  rw [hp] at hb
  rw [hcallbacks]
  have hsame0 : Same st s0 := ⟨rfl, rfl, rfl, rfl⟩
  have hbegin : (∃ st', callback sys .headersComplete s0 = (-1, st') ∧ FileEnds sys p.content s0 st') ∨
      callback sys .headersComplete s0 = (0, { s0 with tempfd := sys.mkstemp, temp := [] }) := by
    show (∃ st', dataBegin sys s0 = (-1, st') ∧ _) ∨ dataBegin sys s0 = _
    have hanswer (s : St) (hs : Same s0 s) :
        ∃ st', response false s = (-1, st') ∧ FileEnds sys p.content s0 st' := by
      obtain ⟨st', heq, -⟩ := response_eq false s
      have hends := (@FileEnds.response sys p.content false s).of_same sys hs
      rw [heq] at hends
      exact ⟨st', heq, hends⟩
    unfold dataBegin
    rw [if_pos rfl]
    split
    · exact .inl (hanswer s0 ⟨rfl, rfl, rfl, rfl⟩)
    split
    · exact .inl (hanswer s0 ⟨rfl, rfl, rfl, rfl⟩)
    dsimp only
    split
    · exact .inl (hanswer _ ⟨rfl, rfl, rfl, rfl⟩)
    · exact .inr rfl
  rcases hbegin with ⟨st', hend, hends⟩ | hbegin
  · exact ⟨st', (hb.stops (Stops.single hend)).append _, hends.of_same sys hsame0⟩
  · have hstart := hb.append (Passes.single hbegin)
    have hsame0 : Same st { s0 with tempfd := sys.mkstemp, temp := [] } := ⟨rfl, rfl, rfl, rfl⟩
    rcases @pieces_ends sys (p.pieces ++ [p.lastPiece])
        { s0 with tempfd := sys.mkstemp, temp := [] } rfl with
      ⟨s1, hpass, hfile, hsame, htemp⟩ | ⟨st', hstop, hends⟩
    · have htemp : s1.temp = p.content := htemp.trans hcontent
      have hends := dataEnd_ends sys hfile (hsame.target.trans htarget)
      obtain ⟨st', hend, -⟩ := dataEnd_log sys hfile
      have hcall : (dataEnd sys s1).2 = st' := congrArg Prod.snd hend
      rw [hcall, htemp] at hends
      exact ⟨st', hstart.stops (hpass.stops (Stops.single hend)),
        (hends.of_same sys hsame).of_same sys hsame0⟩
    · exact ⟨st', hstart.stops (hstop.append _),
        (hends p.content).of_same sys hsame0⟩

/-- What is left of a request is a part that is cut off, or files and what follows. -/
theorem unfinished_ends (es : List Event) (hopen : .dataEnd ∉ es) (st : St) :
    accesses (runCallbacks sys es st).2.log = accesses st.log := by
  induction es generalizing st with
  | nil => rfl
  | cons e es ih =>
    rw [List.mem_cons, not_or] at hopen
    have hone : accesses (callback sys e st).2.log = accesses st.log := by
      cases e with
      | headerField p => rfl
      | headerValue p => rfl
      | headersComplete =>
        change accesses (dataBegin sys st).2.log = _
        unfold dataBegin
        split
        · split
          · exact (response_fields false st).2.2.2.2
          split
          · exact (response_fields false st).2.2.2.2
          dsimp only
          split
          · exact (response_fields false { st with tempfd := sys.mkstemp, temp := [] }).2.2.2.2
          · rfl
        · rfl
      | data p =>
        change accesses (dataPiece sys p st).2.log = _
        unfold dataPiece
        split
        · rfl
        · rfl
        · rfl
        · split
          · rfl
          · exact (response_fields false st).2.2.2.2
        · rfl
      | dataEnd => exact absurd rfl hopen.1
    rw [runCallbacks]
    split
    · exact hone
    · rw [ih hopen.2, hone]

theorem notFile_beforeFile {r : Request} : ∀ p ∈ r.beforeFile, p.type ≠ .filedata := by
  intro p hp
  rw [Request.beforeFile] at hp
  have h := List.mem_takeWhile_imp hp
  exact of_decide_eq_true h

theorem callbacks_split (r : Request) : r.callbacks = r.beforeFile.flatMap Part.callbacks ++
    ((r.complete.dropWhile fun p => p.type ≠ .filedata).flatMap Part.callbacks ++ r.unfinished) := by
  rw [Request.callbacks, ← List.append_assoc, ← List.flatMap_append, Request.beforeFile,
    List.takeWhile_append_dropWhile]

/-- What a run has used at its end, read off the last pieces. -/
structure Used (r : Request) : Prop where
  asked : (accesses (upload sys r).log).map Prod.fst <+: (r.ofType .sessionid).map Part.kept
  all : Permits sys → (accesses (upload sys r).log).map Prod.fst = (r.ofType .sessionid).map Part.kept
  opened : ∀ n, .openTarget n ∈ (upload sys r).log → 
    n = cstr (((r.ofType .filename).getLast?.map (·.lastPiece.bytes)).getD []) ∧
    (upload sys r).filemode =
      (r.ofType .filemode).getLast?.elim 0o600 (fun p => strtoul8 p.lastPiece.text) ∧
    ∃ p, r.filePart = some p ∧
      (upload sys r).temp = p.content ∧ (upload sys r).target <+: p.content ∧
      (0 ≤ sys.openTarget → (∀ target bytes, sys.writeTarget target bytes = true) →
        (upload sys r).target = p.content)

theorem not_opened {log : List Action} (h : NoOpen log) (n : List Byte) : .openTarget n ∉ log :=
  fun hn => Bool.noConfusion (h _ hn)

theorem upload_used (r : Request) : Used sys r := by
  have hrun : upload sys r = (runCallbacks sys (r.beforeFile.flatMap Part.callbacks ++
      ((r.complete.dropWhile fun p => p.type ≠ .filedata).flatMap Part.callbacks ++ r.unfinished))
      St.start).2 := by rw [upload, callbacks_split]
  rcases parts_kept sys r.beforeFile notFile_beforeFile Ready.start Kept.start with
    ⟨st, hpass, hready, hkept⟩ | ⟨st, hstop, hno, hperm, hasked⟩
  · rw [List.nil_append] at hready hkept
    rw [hpass] at hrun
    cases hrest : r.complete.dropWhile fun p => p.type ≠ .filedata with
    | nil =>
      rw [hrest, List.flatMap_nil, List.nil_append] at hrun
      have hasked : accesses (upload sys r).log = accesses st.log := by
        rw [hrun, unfinished_ends sys r.unfinished r.unfinished_open]
      have hno : NoOpen (upload sys r).log := by
        rw [hrun]
        exact (unfinished_log sys _ r.unfinished_open st).noOpen hready.noOpen
      have hall := (congrArg (List.map Prod.fst) hasked).trans hkept.asked
      exact ⟨hall ▸ List.prefix_refl _, fun _ => hall, fun n hn => absurd hn (not_opened hno n)⟩
    | cons p rest =>
      have hp : p.type = .filedata := by
        have := List.head?_dropWhile_not (fun p : Part => decide (p.type ≠ .filedata)) r.complete
        rw [hrest] at this
        simpa using this
      have hfile : r.filePart = some p := by
        rw [Request.filePart, hrest]
        rfl
      obtain ⟨st', hstop, hends⟩ := file_ends sys p hp hready.parttype hkept.target
      rw [hrest, List.flatMap_cons, List.append_assoc, hstop] at hrun
      rw [← hrun] at hends
      have hall := (congrArg (List.map Prod.fst) hends.asked).trans hkept.asked
      refine ⟨hall ▸ List.prefix_refl _, fun _ => hall, fun n hn => ?_⟩
      rcases hends.opened n hn with hbefore | ⟨hname, hcontents⟩
      · exact absurd hbefore (not_opened hready.noOpen n)
      · exact ⟨by rw [hname, hkept.filename]; rfl, hends.filemode.trans hkept.filemode, p, hfile, hcontents⟩
  · rw [hstop] at hrun
    rw [List.nil_append] at hasked
    exact ⟨by rw [hrun]; exact hasked, fun h => absurd h hperm,
      fun n hn => absurd (hrun ▸ hn) (not_opened hno n)⟩

/-- A system in which nothing is refused. -/
def permitAll : System where
  access _ _ := true
  mkstemp := 0
  write _ _ := true
  lseek := 0
  openTarget := 0
  writeTarget _ _ := true
  chmod _ := 0

theorem permits_permitAll : Permits permitAll :=
  ⟨fun _ _ => rfl, Int.le_refl 0, fun _ _ => rfl, Int.le_refl 0⟩

theorem opened_hasUpload {r : Request} {n : List Byte} (hn : .openTarget n ∈ (upload sys r).log) :
    r.HasUpload := by
  rcases (upload_log sys r).2 with hno | ⟨hup, -⟩
  · exact absurd hn (not_opened hno n)
  · exact hup

theorem hasUpload_opened {r : Request} (h : r.HasUpload) :
    ∃ n, .openTarget n ∈ (upload permitAll r).log := by
  obtain ⟨n, tail, -, hlog⟩ := (upload_log permitAll r).1 permits_permitAll h
  exact ⟨n, by rw [hlog]; simp⟩

theorem values_iff (r : Request) : (∀ sys, Values sys r) ↔ PartsSafe r := by
  constructor
  · intro h
    have hvalues := h permitAll
    have hused := upload_used permitAll r
    refine ⟨fun p hp => ?_, fun hup p hp => ?_, fun hup p hp => ?_⟩
    · have hprefix := hvalues.session
      rw [hused.all permits_permitAll] at hprefix
      have hmap := hprefix.eq_of_length (by rw [List.length_map, List.length_map])
      exact List.map_inj_left.mp hmap p hp
    · obtain ⟨n, hn⟩ := hasUpload_opened hup
      have hname := hvalues.name n hn
      have hkept := (hused.opened n hn).1
      rw [Option.mem_def.mp hp] at hname hkept
      exact hkept.symm.trans (Option.some.inj hname).symm
    · obtain ⟨n, hn⟩ := hasUpload_opened hup
      have hmode := (hvalues.mode n hn).symm.trans (hused.opened n hn).2.1
      rw [Option.mem_def.mp hp] at hmode
      exact hmode.symm
  · intro h sys
    have hused := upload_used sys r
    refine ⟨?_, fun n hn => ?_, fun n hn => ?_, fun n hn => (hused.opened n hn).2.2⟩
    · rw [← List.map_congr_left h.session]
      exact hused.asked
    · have hup := opened_hasUpload sys hn
      obtain ⟨-, -, q, hq, ht⟩ := id hup
      have hmem : q ∈ r.ofType .filename := List.mem_filter.mpr ⟨hq, decide_eq_true ht⟩
      have hkept := (hused.opened n hn).1
      cases hlast : (r.ofType .filename).getLast? with
      | none => exact absurd (List.getLast?_eq_none_iff.mp hlast) (List.ne_nil_of_mem hmem)
      | some p =>
        have hwhole := h.name hup p (Option.mem_def.mpr hlast)
        rw [hlast] at hkept
        exact congrArg some (hwhole.symm.trans hkept.symm)
    · rw [(hused.opened n hn).2.1]
      cases hlast : (r.ofType .filemode).getLast? with
      | none => rfl
      | some p => exact h.mode (opened_hasUpload sys hn) p (Option.mem_def.mpr hlast)

/-- The session id "ab" in two pieces, a file name, the mode "644" and a file whose part has
no name. -/
def bufferedRequest : Request where
  complete := [
    namedPart [0x73, 0x65, 0x73, 0x73, 0x69, 0x6f, 0x6e, 0x69, 0x64] [[0x61]] [0x62],
    namedPart [0x66, 0x69, 0x6c, 0x65, 0x6e, 0x61, 0x6d, 0x65] [] [0x66],
    namedPart [0x66, 0x69, 0x6c, 0x65, 0x6d, 0x6f, 0x64, 0x65] [] [0x36, 0x34, 0x34],
    namedPart [0x66, 0x69, 0x6c, 0x65] [] [0x78]]
  unfinished := []
  unfinished_open := List.not_mem_nil

end Iot7688.CgiUpload
