import Iot7688.LuciMime

/-!
The name and the file name that the patterns find in a header, what has been stored for the
parts of a body, and the sink on the text of a form. A field reads as itself unless its file
name comes first or is empty, or its name ends like the parameter of the file name. The sink
stands within a header, within the content of a part or behind the closing delimiter; every
delimiter in the window it searches completes a part and begins the next one.
-/
namespace Iot7688.LuciMime

open Lib
open LuciHttp (Str Failure)

theorem takeWhile_quote {w : Str} (hw : quote ∉ w) (rest : Str) :
    (w ++ quote :: rest).takeWhile (· != quote) = w := by
  have hall : ∀ c ∈ w, (c != quote) = true := fun c hc => by
    rw [bne_iff_ne]
    rintro rfl
    exact hw hc
  rw [List.takeWhile_append_of_pos hall]
  simp

/-- A pattern with one quotation mark at its end is all the text up to the mark. -/
theorem eq_of_quoted_front {w seg rest : Str} (hw : quote ∉ w) (hseg : quote ∉ seg)
    (h : w ++ [quote] <+: seg ++ quote :: rest) : w = seg := by
  obtain ⟨z, hz⟩ := h
  rw [← takeWhile_quote hw z, ← takeWhile_quote hseg rest, ← hz]
  simp

/-- The piece ends with the pattern. -/
theorem findSub_piece {w u : Str} (hw : quote ∉ w) (hu : quote ∉ u) (rest : Str) :
    findSub (w ++ [quote]) (u ++ w ++ quote :: rest) = some (u, rest) := by
  have hsplit : w ++ quote :: rest = w ++ [quote] ++ rest := by simp
  rw [List.append_assoc, findSub_skip, hsplit, findSub_here (by simp)]
  · simp
  · intro t hne ht hpre
    have hmem : quote ∉ t ++ w := by
      intro hmem
      exact (List.mem_append.mp hmem).elim (fun h => hu (ht.subset h)) hw
    rw [← List.append_assoc] at hpre
    have hlen := congrArg List.length (eq_of_quoted_front hw hmem hpre)
    have hpos := List.length_pos_iff.mpr hne
    rw [List.length_append] at hlen
    omega

/-- The piece does not end with the pattern. -/
theorem findSub_next_piece {w seg : Str} (hw : quote ∉ w) (hseg : quote ∉ seg)
    (h : ¬w <:+ seg) (rest : Str) :
    findSub (w ++ [quote]) (seg ++ quote :: rest) =
      (findSub (w ++ [quote]) rest).map fun r => (seg ++ quote :: r.1, r.2) := by
  have hsplit : seg ++ quote :: rest = seg ++ [quote] ++ rest := by simp
  rw [hsplit, findSub_skip]
  · simp
  · intro t hnil ht hpre
    obtain ⟨u, hu⟩ := ht
    obtain ⟨t', d, rfl⟩ := (List.eq_nil_or_concat' t).resolve_left hnil
    rw [← List.append_assoc] at hu
    obtain ⟨hinit, hlast⟩ := List.append_inj' hu rfl
    obtain rfl := List.singleton_inj.mp hlast
    have hsuffix : t' <:+ seg := ⟨u, hinit⟩
    have hmem : quote ∉ t' := fun hmem => hseg (hsuffix.subset hmem)
    rw [List.append_assoc] at hpre
    exact h (eq_of_quoted_front hw hmem hpre ▸ hsuffix)

/-- The name and the file name as the patterns give them. -/
def Part.read (p : Part) : Part :=
  { p with
    name := (dispositionName p.disposition).getD []
    file := dispositionFile p.disposition }

/-- "filename=". -/
def fileParam : Str := filenameIs.dropLast

/-- "name=". -/
def nameParam : Str := nameIs.dropLast

/-- The parameters that the patterns read as they are meant. -/
def Part.Plain (p : Part) : Prop :=
  ∀ file ∈ p.file, p.fileFirst = false ∧ file ≠ [] ∧ ¬fileParam <:+ p.name

theorem quote_not_mem {s : Str} (h : ∀ c ∈ s, c ≠ quote ∧ c ≠ cr ∧ c ≠ lf) : quote ∉ s :=
  fun hmem => (h quote hmem).1 rfl

variable {p : Part}

theorem nameIs_eq : nameIs = nameParam ++ [quote] := rfl
theorem filenameIs_eq : filenameIs = fileParam ++ [quote] := rfl

theorem disposition_none (h : p.file = none) :
    p.disposition = formData ++ nameParam ++ quote :: (p.name ++ [quote]) := by
  simp [Part.disposition, h, nameIs_eq]

theorem disposition_name_first {file : Str} (h : p.file = some file) (hfirst : p.fileFirst = false) :
    p.disposition = formData ++ nameParam ++ quote ::
      (p.name ++ quote :: (nextParam ++ fileParam ++ quote :: (file ++ [quote]))) := by
  simp [Part.disposition, h, hfirst, nameIs_eq, filenameIs_eq]

theorem disposition_file_first {file : Str} (h : p.file = some file) (hfirst : p.fileFirst = true) :
    p.disposition = formData ++ fileParam ++ quote ::
      (file ++ quote :: (nextParam ++ nameParam ++ quote :: (p.name ++ [quote]))) := by
  simp [Part.disposition, h, hfirst, nameIs_eq, filenameIs_eq]

theorem findSub_nameIs (rest : Str) :
    findSub nameIs (formData ++ nameParam ++ quote :: rest) = some (formData, rest) := by
  rw [nameIs_eq]
  exact findSub_piece (by decide) (by decide) rest

theorem dispositionName_of_name {name : Str} (hname : quote ∉ name) (rest : Str) :
    dispositionName (formData ++ nameParam ++ quote :: (name ++ quote :: rest)) = some name := by
  rw [dispositionName, findSub_nameIs, Option.bind_some,
    if_pos (List.mem_append_right _ (List.mem_cons_self ..)), takeWhile_quote hname]

/-- The search for the file name goes on behind the name, unless it finds a place there. -/
theorem findSub_filenameIs {name : Str} (hname : quote ∉ name) (hno : ¬fileParam <:+ name)
    (rest : Str) : findSub filenameIs (formData ++ nameParam ++ quote :: (name ++ quote :: rest)) =
      (findSub filenameIs rest).map fun r =>
        (formData ++ nameParam ++ quote :: (name ++ quote :: r.1), r.2) := by
  rw [filenameIs_eq, findSub_next_piece (by decide) (by decide) (by decide),
    findSub_next_piece (by decide) hname hno, Option.map_map]
  rfl

theorem findSub_filenameIs_early {name : Str} (hname : quote ∉ name) (hsuffix : fileParam <:+ name)
    (rest : Str) : ∃ front, findSub filenameIs
      (formData ++ nameParam ++ quote :: (name ++ quote :: rest)) = some (front, rest) := by
  obtain ⟨u, rfl⟩ := hsuffix
  have hu : quote ∉ u := fun hmem => hname (List.mem_append_left _ hmem)
  rw [filenameIs_eq, findSub_next_piece (by decide) (by decide) (by decide),
    findSub_piece (by decide) hu]
  exact ⟨_, rfl⟩

/-- A field without a file is read as it is. -/
theorem read_of_none (hp : p.Quoted) (h : p.file = none) : p.read = p := by
  have hname := quote_not_mem hp.name
  have hdname : dispositionName p.disposition = some p.name := by
    rw [disposition_none h, dispositionName_of_name hname]
  have hdfile : dispositionFile p.disposition = none := by
    rw [disposition_none h, dispositionFile]
    by_cases hsuffix : fileParam <:+ p.name
    · obtain ⟨front, hfind⟩ := findSub_filenameIs_early hname hsuffix []
      rw [hfind]
      rfl
    · rw [findSub_filenameIs hname hsuffix]
      rfl
  rw [Part.read, hdname, hdfile, ← h]
  rfl

theorem dispositionFile_of_find {value front rest : Str}
    (h : findSub filenameIs value = some (front, rest ++ [quote])) :
    dispositionFile value = if rest = [] then none else some rest := by
  rw [dispositionFile, h, Option.bind_some]
  by_cases hrest : rest = []
  · subst hrest
    rfl
  · have hpos := List.length_pos_iff.mpr hrest
    rw [if_neg hrest, if_pos, List.dropLast_concat]
    rw [List.length_append, List.length_singleton]
    exact ⟨by omega, List.getLast?_concat⟩

theorem findSub_filenameIs_last (file : Str) :
    findSub filenameIs (nextParam ++ fileParam ++ quote :: (file ++ [quote])) =
      some (nextParam, file ++ [quote]) := by
  rw [filenameIs_eq]
  exact findSub_piece (by decide) (by decide) _

theorem read_name_first (hp : p.Quoted) {file : Str} (h : p.file = some file)
    (hfirst : p.fileFirst = false) :
    p.read.name = p.name ∧ p.read.file =
      if fileParam <:+ p.name then some (nextParam ++ fileParam ++ quote :: file)
      else if file = [] then none else some file := by
  have hname := quote_not_mem hp.name
  constructor
  · change (dispositionName p.disposition).getD [] = p.name
    rw [disposition_name_first h hfirst, dispositionName_of_name hname]
    rfl
  · change dispositionFile p.disposition = _
    rw [disposition_name_first h hfirst]
    by_cases hsuffix : fileParam <:+ p.name
    · obtain ⟨front, hfind⟩ := findSub_filenameIs_early hname hsuffix
        (nextParam ++ fileParam ++ quote :: (file ++ [quote]))
      have hsplit : nextParam ++ fileParam ++ quote :: (file ++ [quote]) =
          (nextParam ++ fileParam ++ quote :: file) ++ [quote] := by simp
      rw [hsplit] at hfind ⊢
      rw [dispositionFile_of_find hfind, if_pos hsuffix, if_neg (by simp)]
    · have hfind := findSub_filenameIs hname hsuffix
        (nextParam ++ fileParam ++ quote :: (file ++ [quote]))
      rw [findSub_filenameIs_last, Option.map_some] at hfind
      rw [dispositionFile_of_find hfind, if_neg hsuffix]

theorem read_file_first {file : Str} (h : p.file = some file)
    (hfirst : p.fileFirst = true) :
    p.read.file = some (file ++ quote :: (nextParam ++ nameParam ++ quote :: p.name)) := by
  have hfind : findSub filenameIs p.disposition = some (formData,
      (file ++ quote :: (nextParam ++ nameParam ++ quote :: p.name)) ++ [quote]) := by
    rw [disposition_file_first h hfirst, filenameIs_eq, findSub_piece (by decide) (by decide)]
    simp
  change dispositionFile p.disposition = _
  rw [dispositionFile_of_find hfind, if_neg (by simp)]

theorem read_eq_iff_names : p.read = p ↔ p.read.name = p.name ∧ p.read.file = p.file := by
  obtain ⟨name, file, fileFirst, content⟩ := p
  simp [Part.read]

/-- Which fields are read as they are. -/
theorem read_eq_iff (hp : p.Quoted) : p.read = p ↔ p.Plain := by
  match h : p.file with
  | none =>
    exact iff_of_true (read_of_none hp h) fun file hfile => by rw [h] at hfile; cases hfile
  | some file =>
    have hfirst : p.Plain ↔ p.fileFirst = false ∧ file ≠ [] ∧ ¬fileParam <:+ p.name := by
      rw [Part.Plain, h]
      simp
    rw [hfirst, read_eq_iff_names, h]
    match horder : p.fileFirst with
    | true =>
      refine iff_of_false (fun hand => ?_) (fun hand => nomatch hand.1)
      have hfile := Option.some.inj ((read_file_first h horder).symm.trans hand.2)
      have hlen := congrArg List.length hfile
      rw [List.length_append, List.length_cons] at hlen
      omega
    | false =>
      obtain ⟨hname, hfile⟩ := read_name_first hp h horder
      rw [hfile]
      by_cases hsuffix : fileParam <:+ p.name
      · refine iff_of_false (fun hand => ?_) (fun hand => hand.2.2 hsuffix)
        rw [if_pos hsuffix, Option.some.injEq] at hand
        have hlen := congrArg List.length hand.2
        rw [List.length_append, List.length_cons] at hlen
        omega
      · by_cases hempty : file = []
        · refine iff_of_false (fun hand => ?_) (fun hand => hand.2.1 hempty)
          rw [if_neg hsuffix, if_pos hempty] at hand
          cases hand.2
        · refine iff_of_true ⟨hname, ?_⟩ ⟨rfl, hempty, hsuffix⟩
          rw [if_neg hsuffix, if_neg hempty]

theorem fileParam_eq : fileParam = fileParam.take 4 ++ nameParam := rfl

/-- The decoder finds a name in every header. -/
theorem dispositionName_read (hp : p.Quoted) :
    dispositionName p.disposition = some p.read.name := by
  have hsome : ∃ name, dispositionName p.disposition = some name := by
    match h : p.file with
    | none => exact ⟨_, disposition_none h ▸ dispositionName_of_name (quote_not_mem hp.name) []⟩
    | some file =>
      match hfirst : p.fileFirst with
      | false =>
        exact ⟨_, disposition_name_first h hfirst ▸
          dispositionName_of_name (quote_not_mem hp.name) _⟩
      | true =>
        rw [disposition_file_first h hfirst, fileParam_eq, ← List.append_assoc, dispositionName,
          nameIs_eq, findSub_piece (by decide) (by decide), Option.bind_some,
          if_pos (List.mem_append_right _ (List.mem_cons_self ..))]
        exact ⟨_, rfl⟩
  obtain ⟨name, hname⟩ := hsome
  change _ = some ((dispositionName p.disposition).getD [])
  rw [hname]
  rfl

theorem isValue_disposition (hp : p.Quoted) : IsValue p.disposition := by
  have hline : ∀ c : Byte, c ≠ quote ∧ c ≠ cr ∧ c ≠ lf → isLineEnd c = false := by
    intro c hc
    simp [isLineEnd, hc.2.1, hc.2.2]
  have hconst : ∀ s : Str, s.any isLineEnd = false → ∀ c ∈ s, isLineEnd c = false :=
    fun s hs c hc => Bool.eq_false_iff.mpr (List.any_eq_false.mp hs c hc)
  have hname : ∀ c ∈ p.name, isLineEnd c = false := fun c hc => hline c (hp.name c hc)
  obtain ⟨rest, hrest⟩ := formData_prefix p
  have hnil : ∀ c ∈ ([] : Str), isLineEnd c = false := hconst [] rfl
  refine ⟨?_, ?_, ?_⟩
  · rw [← hrest]
    exact List.cons_ne_nil _ _
  · rw [← hrest]
    exact ne_of_beq_false rfl
  · cases h : p.file with
    | none =>
      rw [disposition_none h]
      simp only [List.forall_mem_append, List.forall_mem_cons]
      exact ⟨⟨hconst _ rfl, hconst _ rfl⟩, rfl, hname, rfl, hnil⟩
    | some file =>
      have hfile : ∀ c ∈ file, isLineEnd c = false := fun c hc => hline c (hp.file file h c hc)
      cases hfirst : p.fileFirst with
      | false =>
        rw [disposition_name_first h hfirst]
        simp only [List.forall_mem_append, List.forall_mem_cons]
        exact ⟨⟨hconst _ rfl, hconst _ rfl⟩, rfl, hname, rfl, ⟨hconst _ rfl, hconst _ rfl⟩, rfl,
          hfile, rfl, hnil⟩
      | true =>
        rw [disposition_file_first h hfirst]
        simp only [List.forall_mem_append, List.forall_mem_cons]
        exact ⟨⟨hconst _ rfl, hconst _ rfl⟩, rfl, hfile, rfl, ⟨hconst _ rfl, hconst _ rfl⟩, rfl,
          hname, rfl, hnil⟩

/-- One more value under a name. -/
def addVal : Option Val → Str → Val
  | none, s => .one s
  | some (.one first), s => .table none [first] s
  | some (.table file init last), s => .table file (init ++ [last]) s

def addEntry (params : Params) (e : Str × Str) : Params :=
  Function.update params e.1 (some (addVal (params e.1) e.2))

/-- The table that a list of names and values builds up. -/
def tableOf (entries : List (Str × Str)) : Params := entries.foldl addEntry fun _ => none

theorem tableOf_append (l : List (Str × Str)) (e : Str × Str) :
    tableOf (l ++ [e]) = addEntry (tableOf l) e := by
  rw [tableOf, List.foldl_append]
  rfl

theorem initval_eq (params : Params) (key : Str) :
    initval params key = addEntry params (key, []) := by
  unfold initval addEntry
  dsimp only
  match params key with
  | none | some (.one _) | some (.table _ _ _) => rfl

theorem appendval_addEntry (params : Params) (key val chunk : Str) :
    appendval (addEntry params (key, val)) key chunk = addEntry params (key, val ++ chunk) := by
  unfold appendval addEntry
  dsimp only
  rw [Function.update_idem, Function.update_self, Option.map_some]
  congr 2
  match params key with
  | none | some (.one _) | some (.table _ _ _) => rfl

/-- A field is stored under its name, a file by its file name. -/
def Part.entry (p : Part) : Str × Str := (p.name, p.file.getD p.content)

def Call.IsFor (p : Part) (c : Call) : Prop := c.hdr.name = some p.name ∧ c.hdr.file = p.file

def bytes (calls : List Call) : Str := calls.flatMap Call.buf

/-- The calls for a file: the last one, and no other, is at the end of the file. -/
structure FileRun (p : Part) (run : List Call) : Prop where
  isFor : ∀ c ∈ run, c.IsFor p
  content : bytes run = p.content
  eof : ∃ init last, run = init ++ [last] ∧ last.eof = true ∧ ∀ c ∈ init, c.eof = false

/-- The calls for the files among the parts, file after file. -/
inductive Delivered : List Part → List Call → Prop
  | nil : Delivered [] []
  | param {parts calls p} : Delivered parts calls → p.file = none → Delivered (parts ++ [p]) calls
  | file {parts calls p run} : Delivered parts calls → p.file ≠ none → FileRun p run →
      Delivered (parts ++ [p]) (calls ++ run)

/-- The table and the calls of complete parts. -/
structure Stored (parts : List Part) (s : Sink) : Prop where
  params : s.params = tableOf (parts.map Part.entry)
  calls : Delivered parts s.calls

/-- A part is open behind complete ones, with the text it has been handed so far. -/
structure Open (parts : List Part) (p : Part) (text : Str) (s : Sink) : Prop where
  store : s.store = some (if p.file = none then .param p.name else .callback)
  field : s.field.name = some p.name ∧ s.field.file = p.file
  params : s.params = tableOf (parts.map Part.entry ++ [(p.name, p.file.getD text)])
  calls : ∃ calls run, s.calls = calls ++ run ∧ Delivered parts calls ∧
    (∀ c ∈ run, c.IsFor p ∧ c.eof = false) ∧
      if p.file = none then run = [] else bytes run = text

/-- Storing does not touch the header flag and the length. -/
def SameFlags (s s' : Sink) : Prop := s'.inhdr = s.inhdr ∧ s'.tlen = s.tlen

theorem bytes_append (calls calls' : List Call) :
    bytes (calls ++ calls') = bytes calls ++ bytes calls' := List.flatMap_append

theorem bytes_singleton (c : Call) : bytes [c] = c.buf := List.append_nil _

variable {parts : List Part} {p : Part} {text : Str} {s : Sink}

theorem openField_open {env : Env} (hcb : env.filecb = true) (h : Stored parts s)
    (hname : s.field.name = some p.name) (hfile : s.field.file = p.file) :
    ∃ s', openField env s = .ok s' ∧ Open parts p [] s' ∧ SameFlags s s' := by
  unfold openField
  rw [hname, hfile]
  match hp : p.file with
  | none =>
    refine ⟨_, rfl, ⟨by rw [hp]; rfl, ⟨hname, hfile⟩, ?_, ?_⟩, rfl, rfl⟩
    · dsimp only
      rw [initval_eq, h.params, ← tableOf_append, hp]
      rfl
    · refine ⟨s.calls, [], (List.append_nil _).symm, h.calls, nofun, ?_⟩
      rw [if_pos hp]
  | some file =>
    dsimp only
    rw [if_pos hcb]
    refine ⟨_, rfl, ⟨by rw [hp]; rfl, ⟨hname, hfile⟩, ?_, ?_⟩, rfl, rfl⟩
    · dsimp only
      rw [initval_eq, appendval_addEntry, h.params, ← tableOf_append, hp]
      rfl
    · refine ⟨s.calls, [], (List.append_nil _).symm, h.calls, nofun, ?_⟩
      rw [if_neg (by rw [hp]; exact nofun)]
      rfl

theorem runStore_param {name : Str} (h : s.store = some (.param name)) (buf : Str) (eof : Bool) :
    runStore s buf eof = .ok { s with params := appendval s.params name buf } := by
  unfold runStore
  rw [h]

theorem runStore_callback (h : s.store = some .callback) (buf : Str) (eof : Bool) :
    runStore s buf eof = .ok { s with calls := s.calls ++ [⟨s.field, buf, eof⟩] } := by
  unfold runStore
  rw [h]

theorem appendval_tableOf (l : List (Str × Str)) (key val chunk : Str) :
    appendval (tableOf (l ++ [(key, val)])) key chunk = tableOf (l ++ [(key, val ++ chunk)]) := by
  rw [tableOf_append, appendval_addEntry, tableOf_append]

/-- Another piece of the open part. -/
theorem Open.more (h : Open parts p text s) (buf : Str) :
    ∃ s', runStore s buf false = .ok s' ∧ Open parts p (text ++ buf) s' ∧ SameFlags s s' := by
  obtain ⟨hstore, hfield, hparams, calls, run, hcalls, hdelivered, hrun, hbytes⟩ := h
  by_cases hp : p.file = none
  · rw [if_pos hp] at hstore hbytes
    refine ⟨_, runStore_param hstore buf false, ⟨by rw [if_pos hp]; exact hstore, hfield, ?_,
      calls, run, hcalls, hdelivered, hrun, by rw [if_pos hp]; exact hbytes⟩, rfl, rfl⟩
    dsimp only
    rw [hparams, hp]
    exact appendval_tableOf _ _ _ _
  · rw [if_neg hp] at hstore hbytes
    refine ⟨_, runStore_callback hstore buf false, ⟨by rw [if_neg hp]; exact hstore, hfield, ?_,
      calls, run ++ [⟨s.field, buf, false⟩], ?_, hdelivered, ?_, ?_⟩, rfl, rfl⟩
    · obtain ⟨file, hfile⟩ := Option.ne_none_iff_exists'.mp hp
      dsimp only
      rw [hparams, hfile]
      rfl
    · dsimp only
      rw [hcalls, List.append_assoc]
    · intro c hc
      rcases List.mem_append.mp hc with hc | hc
      · exact hrun c hc
      · rw [List.mem_singleton.mp hc]
        exact ⟨hfield, rfl⟩
    · rw [if_neg hp, bytes_append, bytes_singleton, hbytes]

/-- The last piece completes the part. -/
theorem Open.last (h : Open parts p text s) (buf : Str) :
    ∃ s', runStore s buf true = .ok s' ∧
      Stored (parts ++ [{ p with content := text ++ buf }]) s' ∧ SameFlags s s' := by
  obtain ⟨hstore, hfield, hparams, calls, run, hcalls, hdelivered, hrun, hbytes⟩ := h
  by_cases hp : p.file = none
  · rw [if_pos hp] at hstore hbytes
    refine ⟨_, runStore_param hstore buf true, ⟨?_, ?_⟩, rfl, rfl⟩
    · dsimp only
      rw [hparams, List.map_append, hp]
      refine (appendval_tableOf _ _ _ _).trans ?_
      simp [Part.entry]
    · dsimp only
      rw [hcalls, hbytes, List.append_nil]
      exact hdelivered.param hp
  · rw [if_neg hp] at hstore hbytes
    refine ⟨_, runStore_callback hstore buf true, ⟨?_, ?_⟩, rfl, rfl⟩
    · obtain ⟨file, hfile⟩ := Option.ne_none_iff_exists'.mp hp
      dsimp only
      rw [hparams, List.map_append, hfile]
      simp [Part.entry]
    · dsimp only
      rw [hcalls, List.append_assoc]
      refine hdelivered.file hp ⟨?_, ?_, run, _, rfl, rfl, fun c hc => (hrun c hc).2⟩
      · intro c hc
        rcases List.mem_append.mp hc with hc | hc
        · exact (hrun c hc).1
        · rw [List.mem_singleton.mp hc]
          exact hfield
      · rw [bytes_append, bytes_singleton, hbytes]

/-- The parts of the form are those stored and those to come, each as the decoder reads
it. When a delimiter has been missed there are fewer of them. -/
def Account (parts actual todo : List Part) : Bool → Prop
  | false => parts.map Part.read = actual ++ todo.map Part.read
  | true => actual.length + todo.length < parts.length

theorem Account.next {parts actual rest : List Part} {p : Part} {lossy : Bool}
    (h : Account parts actual (p :: rest) lossy) :
    Account parts (actual ++ [p.read]) rest lossy := by
  cases lossy with
  | false =>
    rw [Account] at h ⊢
    rw [h, List.map_cons, List.append_assoc]
    rfl
  | true =>
    rw [Account, List.length_cons] at h
    rw [Account, List.length_append, List.length_singleton]
    omega

/-- Where the sink stands, what is left of the text, and how long a window of it is at
least that the sink goes on from. -/
inductive Cursor (f : Form) (lossy : Bool) (s : Sink) : Str → ℕ → Prop
  | header {actual p rest left headers} (hrest : (p :: rest) <:+ f.parts)
      (hacc : Account f.parts actual (p :: rest) lossy) (hinhdr : s.inhdr = true)
      (hstored : Stored actual s) (hfield : s.field = ⟨headers, none, none⟩)
      (hleft : HeaderAt p left headers) :
      Cursor f lossy s (left ++ (p.content ++ following f.boundary rest)) left.length
  | content {actual p rest text y} (hrest : rest <:+ f.parts)
      (hacc : Account f.parts (actual ++ [{ p with content := text ++ y }]) rest lossy)
      (hinhdr : s.inhdr = false) (hopen : Open actual p text s)
      (hy : ¬separator f.boundary <:+: y) :
      Cursor f lossy s (y ++ following f.boundary rest)
        (y ++ delimiterOf f.boundary rest).length
  | finish {actual} (hacc : Account f.parts actual [] lossy) (hinhdr : s.inhdr = true)
      (hstored : Stored actual s) (hfield : s.field = noField) : Cursor f lossy s [] 1

variable {f : Form} {env : Env} {lossy : Bool} {s : Sink} {actual rest : List Part} {p : Part}

theorem Stored.congr {s' : Sink} (h : Stored actual s) (hparams : s'.params = s.params)
    (hcalls : s'.calls = s.calls) : Stored actual s' :=
  ⟨hparams.trans h.params, hcalls ▸ h.calls⟩

theorem open_field (hcb : env.filecb = true) (hp : p.Quoted) (h : Stored actual s) :
    ∃ s', openField env { s with field := p.field } = .ok s' ∧ Open actual p.read [] s' ∧
      s'.tlen = s.tlen := by
  have hstored : Stored actual { s with field := p.field } := h.congr rfl rfl
  obtain ⟨s', hs', hopen, hflags⟩ := openField_open hcb hstored
    (by rw [Part.field_eq]; exact dispositionName_read hp) (by rw [Part.field_eq]; rfl)
  exact ⟨s', hs', hopen, hflags.2⟩

theorem Open.congr {text : Str} {s' : Sink} (h : Open actual p text s) (hstore : s'.store = s.store)
    (hfield : s'.field = s.field) (hparams : s'.params = s.params) (hcalls : s'.calls = s.calls) :
    Open actual p text s' :=
  ⟨hstore ▸ h.store, hfield ▸ h.field, hparams ▸ h.params, hcalls ▸ h.calls⟩

/-- A window that begins within a header. -/
theorem header_step (hcb : env.filecb = true) (hrest : (p :: rest) <:+ f.parts)
    (hacc : Account f.parts actual (p :: rest) lossy) (hstored : Stored actual s) {left : Str}
    {headers : List (Str × Str)} (hfield : s.field = ⟨headers, none, none⟩)
    (hleft : HeaderAt p left headers) {data more : Str}
    (hdata : data ++ more = left ++ (p.content ++ following f.boundary rest)) :
    ∃ data' eof s' left' m, parseHeaders env s data = .ok (data', eof, s') ∧
      Cursor f lossy { s' with inhdr := !eof } left' m ∧ data' ++ more = left' ∧
      (if eof then data' <:+ data else data'.length < m) ∧ s'.tlen = s.tlen := by
  have hmem : p ∈ f.parts := hrest.subset (List.mem_cons_self ..)
  have hvalue := isValue_disposition (f.quoted p hmem)
  rcases Nat.lt_or_ge data.length left.length with hlt | hge
  · obtain ⟨left', data', headers', hparse, hleft', hmore, hshort⟩ :=
      parseHeaders_part env hvalue hleft hfield hdata hlt
    exact ⟨data', false, _, _, left'.length, hparse,
      .header hrest hacc rfl (hstored.congr rfl rfl) rfl hleft', hmore, hshort, rfl⟩
  · obtain ⟨data', rfl⟩ := List.prefix_of_prefix_length_le
      (hdata ▸ List.prefix_append _ _ : left <+: data ++ more) (List.prefix_append data more) hge
    have hmore : data' ++ more = p.content ++ following f.boundary rest := by
      rw [List.append_assoc] at hdata
      exact List.append_cancel_left hdata
    obtain ⟨s', hs', hopen, htlen⟩ := open_field hcb (f.quoted p hmem) hstored
    have hparse := parseHeaders_end env hvalue hleft hfield data'
    rw [hs'] at hparse
    have hsep : ¬separator f.boundary <:+: p.content := fun hwithin =>
      f.separated p hmem (hwithin.trans (List.suffix_append crlf p.content).isInfix)
    have hsuffix : rest <:+ f.parts := (List.suffix_cons p rest).trans hrest
    exact ⟨data', true, s', _, _, hparse,
      .content hsuffix hacc.next rfl (hopen.congr rfl rfl rfl rfl) hsep, hmore,
      List.suffix_append left data', htlen⟩

/-- Behind a delimiter the next part begins, or the text ends. -/
theorem next_part (hcb : env.filecb = true) (hrest : rest <:+ f.parts)
    (hacc : Account f.parts actual rest lossy) (hstored : Stored actual s) {data more : Str}
    (hdata : data ++ more = behind f.boundary rest) :
    ∃ data' eof s' left m, parseHeaders env { s with field := noField } data = .ok (data', eof, s') ∧
      Cursor f lossy { s' with inhdr := !eof } left m ∧ data' ++ more = left ∧
      (eof = false → data'.length < m) ∧ s'.tlen = s.tlen := by
  cases rest with
  | nil =>
    obtain ⟨rfl, rfl⟩ := List.append_eq_nil_iff.mp hdata
    have hlines : headerLines [] noField.headers = ([], noField.headers) :=
      headerLines_of_none headerLine_nil _
    refine ⟨[], false, { s with field := noField }, [], 1, ?_,
      .finish hacc rfl (hstored.congr rfl rfl) rfl, rfl, fun _ => Nat.zero_lt_one, rfl⟩
    unfold parseHeaders
    dsimp only
    rw [hlines]
    rfl
  | cons p rest =>
    have hstored' : Stored actual { s with field := noField } := hstored.congr rfl rfl
    have hfield : ({ s with field := noField } : Sink).field = ⟨[], none, none⟩ := rfl
    rw [behind, List.append_assoc] at hdata
    obtain ⟨data', eof, s', left, m, hparse, hcursor, hleft, hwindow, htlen⟩ :=
      header_step hcb hrest hacc hstored' hfield (Or.inl ⟨rfl, rfl⟩) hdata
    refine ⟨data', eof, s', left, m, hparse, hcursor, hleft, fun heof => ?_, htlen⟩
    rw [heof, if_neg Bool.false_ne_true] at hwindow
    exact hwindow

/-- The delimiter ends the content that is open. -/
theorem closePart_content {text y : Str} (hinhdr : s.inhdr = false) (h : Open actual p text s) :
    ∃ s', closePart env s y = .ok s' ∧
      Stored (actual ++ [{ p with content := text ++ y }]) s' ∧ s'.tlen = s.tlen := by
  obtain ⟨s', hs', hstored, hflags⟩ := h.last y
  refine ⟨s', ?_, hstored, hflags.2⟩
  have hno : ¬s.inhdr = true := by rw [hinhdr]; exact Bool.false_ne_true
  have hstore : s.store ≠ none := by rw [h.store]; exact nofun
  unfold closePart
  rw [if_neg hno, if_neg hstore, hs']

/-- The headers and the content are both in front of the delimiter. -/
theorem closePart_header (hcb : env.filecb = true) (hp : p.Quoted) {left : Str}
    {headers : List (Str × Str)} (hinhdr : s.inhdr = true) (hstored : Stored actual s)
    (hfield : s.field = ⟨headers, none, none⟩) (hleft : HeaderAt p left headers) :
    ∃ s', closePart env s (left ++ p.content) = .ok s' ∧ Stored (actual ++ [p.read]) s' ∧
      s'.tlen = s.tlen := by
  obtain ⟨s₁, hs₁, hopen, htlen₁⟩ := open_field hcb hp hstored
  obtain ⟨s₂, hs₂, hstored₂, hflags⟩ := hopen.last p.content
  have hparse := parseHeaders_end env (isValue_disposition hp) hleft hfield p.content
  rw [hs₁] at hparse
  have hname : ¬s₁.field.name = none := by rw [hopen.field.1]; exact nofun
  have hstore : s₁.store ≠ none := by rw [hopen.store]; exact nofun
  refine ⟨s₂, ?_, hstored₂, hflags.2.trans htlen₁⟩
  unfold closePart
  rw [if_pos hinhdr, hparse]
  dsimp only [Except.map]
  rw [if_neg (by simp), if_neg hname, if_neg hstore, hs₂]

theorem scan_none {boundary : Str} {found : Bool} {data : Str}
    (h : findDelimiter boundary data = none) :
    scan env boundary s found data = .ok (found, data, s) := by
  rw [scan]
  split
  · rfl
  · next hfind => rw [h] at hfind; cases hfind

theorem scan_some {boundary : Str} {found eof : Bool} {data predata data' data'' : Str} {s₁ s₂ : Sink}
    (hfind : findDelimiter boundary data = some (predata, data'))
    (hclose : closePart env s predata = .ok s₁)
    (hparse : parseHeaders env { s₁ with field := noField } data' = .ok (data'', eof, s₂)) :
    scan env boundary s found data =
      scan env boundary { s₂ with inhdr := !eof } true data'' := by
  rw [scan]
  split
  · next hnone => rw [hfind] at hnone; cases hnone
  · next r hr =>
    obtain rfl := Option.some.inj (hfind.symm.trans hr)
    dsimp only
    split
    · next he => rw [hclose] at he; cases he
    · next s' hs' =>
      obtain rfl := Except.ok.inj (hclose.symm.trans hs')
      split
      · next he => rw [hparse] at he; cases he
      · next p hp =>
        obtain rfl := Except.ok.inj (hparse.symm.trans hp)
        rfl

/-- What the loop leaves behind: it found nothing, or it goes on from a shorter window. -/
def Scanned (f : Form) (lossy : Bool) (s : Sink) (found : Bool) (data more : Str)
    (r : Bool × Str × Sink) : Prop :=
  (r = (found, data, s) ∧ findDelimiter f.boundary data = none) ∨
    r.1 = true ∧ r.2.2.tlen = s.tlen ∧
      ∃ m, Cursor f lossy r.2.2 (r.2.1 ++ more) m ∧ r.2.1.length < m

/-- Nothing is found in front of the end of the next delimiter. -/
theorem Cursor.length_lt {left : Str} {m : ℕ} (h : Cursor f lossy s left m) {data more : Str}
    (hdata : data ++ more = left) (hnone : findDelimiter f.boundary data = none)
    (hinhdr : s.inhdr = false) : data.length < m := by
  cases h with
  | header _ _ htrue => rw [hinhdr] at htrue; cases htrue
  | finish _ htrue => rw [hinhdr] at htrue; cases htrue
  | content _ _ _ _ hy =>
    by_contra hge
    obtain ⟨data', hfind, _⟩ :=
      findDelimiter_window f.boundary_line hy hdata (Nat.le_of_not_lt hge)
    rw [hnone] at hfind
    cases hfind

/-- A separator begins with a carriage return. -/
theorem separator_infix_skip {boundary x y : Str} (hx : cr ∉ x)
    (h : separator boundary <:+: x ++ y) : separator boundary <:+: y := by
  induction x with
  | nil => exact h
  | cons c cs ih =>
    rw [List.mem_cons, not_or] at hx
    rcases List.infix_cons_iff.mp h with hpre | hwithin
    · rw [separator_cons] at hpre
      exact absurd (List.cons_prefix_cons.mp hpre).1 hx.1
    · exact ih hx.2 hwithin

theorem not_separator_header (hp : p ∈ f.parts) {left : Str} {headers : List (Str × Str)}
    (hleft : HeaderAt p left headers) : ¬separator f.boundary <:+: left ++ p.content := by
  intro h
  rcases hleft with ⟨rfl, _⟩ | ⟨rfl, _⟩
  · have hline := cr_not_mem_line (isValue_disposition (f.quoted p hp))
    rw [Part.header, List.append_assoc, List.append_assoc] at h
    rcases List.infix_cons_iff.mp (separator_infix_skip hline h) with hpre | hwithin
    · rw [separator_cons] at hpre
      have hsecond := (List.cons_prefix_cons.mp hpre).2
      have hthird := (List.cons_prefix_cons.mp hsecond).2
      exact absurd (List.cons_prefix_cons.mp hthird).1 (by decide)
    · have hlf : cr ∉ [lf] := by decide
      exact f.separated p hp (separator_infix_skip hlf hwithin)
  · exact f.separated p hp h

/-- The part that the delimiter ends is complete; the loop goes on behind the delimiter. -/
theorem scan_next (hcb : env.filecb = true) {data data' predata more : Str} {s₁ : Sink}
    (hfind : findDelimiter f.boundary data = some (predata, data'))
    (hclose : closePart env s predata = .ok s₁) (htlen : s₁.tlen = s.tlen)
    (hstored : Stored actual s₁) (hrest : rest <:+ f.parts)
    (hacc : Account f.parts actual rest lossy) (hmore : data' ++ more = behind f.boundary rest)
    (ih : ∀ data'' : Str, data''.length < data.length → ∀ s' left m, Cursor f lossy s' left m →
      data'' ++ more = left → ∃ r, scan env f.boundary s' true data'' = .ok r ∧
        Scanned f lossy s' true data'' more r) (found : Bool) :
    ∃ r, scan env f.boundary s found data = .ok r ∧ Scanned f lossy s found data more r := by
  obtain ⟨data'', eof, s₂, left, m, hparse, hcursor, hleft, hshort, htlen₂⟩ :=
    next_part hcb hrest hacc hstored hmore
  have hlt : data''.length < data.length :=
    (parseHeaders_length hparse).trans_lt (findDelimiter_length hfind)
  rw [scan_some hfind hclose hparse]
  obtain ⟨r, hr, hscanned⟩ := ih data'' hlt _ left m hcursor hleft
  refine ⟨r, hr, Or.inr ?_⟩
  rcases hscanned with ⟨rfl, hnone⟩ | ⟨hfound, htlen', m', hcursor', hlt⟩
  · refine ⟨rfl, htlen₂.trans htlen, m, hleft ▸ hcursor, ?_⟩
    cases eof with
    | false => exact hshort rfl
    | true => exact hcursor.length_lt hleft hnone rfl
  · exact ⟨hfound, htlen'.trans (htlen₂.trans htlen), m', hcursor', hlt⟩

theorem scan_spec (hcb : env.filecb = true) {s : Sink} {left data more : Str} {m : ℕ}
    (h : Cursor f lossy s left m) (hdata : data ++ more = left) (found : Bool) :
    ∃ r, scan env f.boundary s found data = .ok r ∧ Scanned f lossy s found data more r := by
  match hfind : findDelimiter f.boundary data with
  | none => exact ⟨_, scan_none hfind, Or.inl ⟨rfl, hfind⟩⟩
  | some (predata, data') =>
    have ih : ∀ data'' : Str, data''.length < data.length → ∀ s' left m,
        Cursor f lossy s' left m → data'' ++ more = left →
        ∃ r, scan env f.boundary s' true data'' = .ok r ∧ Scanned f lossy s' true data'' more r :=
      fun data'' hlt s' left m h' hdata' => scan_spec hcb h' hdata' true
    have hwindow : ∀ {x : Str} {rest : List Part}, ¬separator f.boundary <:+: x →
        data ++ more = x ++ following f.boundary rest →
        predata = x ∧ data' ++ more = behind f.boundary rest := by
      intro x rest hx hx'
      rcases Nat.lt_or_ge data.length (x ++ delimiterOf f.boundary rest).length with hlt | hge
      · rw [findDelimiter_window_none f.boundary_line hx hx' hlt] at hfind
        cases hfind
      · obtain ⟨data₁, hfind₁, hmore⟩ := findDelimiter_window f.boundary_line hx hx' hge
        obtain ⟨hpre, hdata₁⟩ := Prod.mk.inj (Option.some.inj (hfind.symm.trans hfind₁))
        exact ⟨hpre, hdata₁ ▸ hmore⟩
    cases h with
    | header hrest hacc hinhdr hstored hfield hleft =>
      rename_i p rest left headers
      have hp : p ∈ f.parts := hrest.subset (List.mem_cons_self ..)
      rw [← List.append_assoc] at hdata
      obtain ⟨rfl, hmore⟩ := hwindow (not_separator_header hp hleft) hdata
      obtain ⟨s₁, hclose, hstored₁, htlen⟩ :=
        closePart_header hcb (f.quoted p hp) hinhdr hstored hfield hleft
      exact scan_next hcb hfind hclose htlen hstored₁ ((List.suffix_cons p rest).trans hrest)
        hacc.next hmore ih found
    | content hrest hacc hinhdr hopen hy =>
      obtain ⟨rfl, hmore⟩ := hwindow hy hdata
      obtain ⟨s₁, hclose, hstored₁, htlen⟩ := closePart_content hinhdr hopen
      exact scan_next hcb hfind hclose htlen hstored₁ hrest hacc hmore ih found
    | finish =>
      obtain ⟨rfl, _⟩ := List.append_eq_nil_iff.mp hdata
      have hlt := findDelimiter_length hfind
      exact absurd hlt (Nat.not_lt_zero _)
termination_by data.length

end Iot7688.LuciMime
