import Iot7688.LuciMimePump

/-!
When decoding inverts the encoding of a form. The calls at the end of a file tell the
names that were read, and the table tells the number of parts and the length of what was
stored. A body without a delimiter in its first two chunks runs into an error of Lua.
-/
namespace Iot7688.LuciMime

open Lib
open LuciHttp (Str Failure values values_append perm_of_values)

/-- The values under a name. -/
def listOf : Option Val → List Str
  | none => []
  | some (.one s) => [s]
  | some (.table _ init last) => init ++ [last]

theorem listOf_tableOf (l : List (Str × Str)) (key : Str) :
    listOf (tableOf l key) = values l key := by
  induction l using List.reverseRecOn with
  | nil => rfl
  | append_singleton l e ih =>
    rw [tableOf_append, addEntry, values_append, ← ih]
    by_cases h : key = e.1
    · subst h
      rw [Function.update_self]
      match tableOf l e.1 with
      | none | some (.one _) | some (.table _ _ _) => simp [addVal, listOf, values]
    · have hne : ¬e.1 = key := fun heq => h heq.symm
      rw [Function.update_of_ne h]
      simp [values, hne]

theorem perm_of_tableOf {l l' : List (Str × Str)} (h : tableOf l = tableOf l') : l.Perm l' := by
  refine perm_of_values fun key => ?_
  rw [← listOf_tableOf, ← listOf_tableOf, h]

/-- The names of the files among the parts. -/
def fileKeys (parts : List Part) : List (Str × Option Str) :=
  (parts.filter fun p => p.file.isSome).map fun p => (p.name, p.file)

theorem fileKeys_append (parts parts' : List Part) :
    fileKeys (parts ++ parts') = fileKeys parts ++ fileKeys parts' := by simp [fileKeys]

/-- The calls at the end of a file, by its names. -/
def eofKeys (calls : List Call) : List (Str × Option Str) :=
  (calls.filter Call.eof).map fun c => (c.hdr.name.getD [], c.hdr.file)

theorem eofKeys_append (calls calls' : List Call) :
    eofKeys (calls ++ calls') = eofKeys calls ++ eofKeys calls' := by simp [eofKeys]

theorem eofKeys_of_not_eof {calls : List Call} (h : ∀ c ∈ calls, c.eof = false) :
    eofKeys calls = [] := by
  rw [eofKeys, List.filter_eq_nil_iff.mpr fun c hc => by rw [h c hc]; exact Bool.false_ne_true,
    List.map_nil]

theorem Delivered.eofKeys_eq {parts : List Part} {calls : List Call} (h : Delivered parts calls) :
    eofKeys calls = fileKeys parts := by
  induction h with
  | nil => rfl
  | param _ hp ih =>
    rw [fileKeys_append, ih]
    simp [fileKeys, hp]
  | file _ hp hrun ih =>
    obtain ⟨init, last, hsplit, heof, hinit⟩ := hrun.eof
    obtain ⟨file, hfile⟩ := Option.ne_none_iff_exists'.mp hp
    have hlast := hrun.isFor last (by rw [hsplit]; simp)
    rw [eofKeys_append, fileKeys_append, ih, hsplit, eofKeys_append, eofKeys_of_not_eof hinit]
    simp [eofKeys, fileKeys, heof, hlast.1, hlast.2, hfile]

theorem read_file_none {p : Part} (hp : p.Quoted) (h : p.file = none) : p.read.file = none := by
  rw [read_of_none hp h, h]

theorem fileKeys_read_length {parts : List Part} (h : ∀ p ∈ parts, p.Quoted) :
    (fileKeys (parts.map Part.read)).length ≤ (fileKeys parts).length := by
  induction parts with
  | nil => exact Nat.le_refl 0
  | cons p rest ih =>
    obtain ⟨hp, hrest⟩ := List.forall_mem_cons.mp h
    have := ih hrest
    match hfile : p.file with
    | none =>
      have hread := read_file_none hp hfile
      simpa [fileKeys, hfile, hread] using this
    | some file =>
      match hread : p.read.file with
      | none =>
        simp only [fileKeys, List.length_map] at this ⊢
        simp [hfile, hread]
        omega
      | some _ => simpa [fileKeys, hfile, hread] using this

/-- The names at the ends of the files tell whether every part was read as it is. -/
theorem read_of_fileKeys {parts : List Part} (h : ∀ p ∈ parts, p.Quoted)
    (hkeys : fileKeys (parts.map Part.read) = fileKeys parts) : ∀ p ∈ parts, p.read = p := by
  induction parts with
  | nil => exact fun p hp => absurd hp List.not_mem_nil
  | cons p rest ih =>
    obtain ⟨hp, hrest⟩ := List.forall_mem_cons.mp h
    rw [List.forall_mem_cons]
    match hfile : p.file with
    | none =>
      have hread := read_of_none hp hfile
      refine ⟨hread, ih hrest ?_⟩
      simpa [fileKeys, hfile, hread] using hkeys
    | some file =>
      match hread : p.read.file with
      | none =>
        have hlen := congrArg List.length hkeys
        have hle := fileKeys_read_length hrest
        simp only [fileKeys, List.length_map] at hlen hle
        simp [hfile, hread] at hlen
        omega
      | some file' =>
        have hcons : (p.read.name, p.read.file) :: fileKeys (rest.map Part.read) =
            (p.name, p.file) :: fileKeys rest := by
          simpa [fileKeys, hfile, hread] using hkeys
        injection hcons with hhead htail
        injection hhead with hname hfile'
        exact ⟨read_eq_iff_names.mpr ⟨hname, hfile'⟩, ih hrest htail⟩

def entrySize (e : Str × Str) : ℕ := e.1.length + e.2.length

/-- What is read in the place of an entry is not shorter. -/
theorem entrySize_le_read {p : Part} (hp : p.Quoted) :
    entrySize p.entry ≤ entrySize p.read.entry := by
  cases hfile : p.file with
  | none => rw [read_of_none hp hfile]
  | some file =>
    have hentry : entrySize p.entry = p.name.length + file.length := by
      rw [Part.entry, hfile]
      rfl
    rw [hentry]
    cases hfirst : p.fileFirst with
    | true =>
      rw [Part.entry, read_file_first hfile hfirst]
      simp only [entrySize, Option.getD_some, List.length_append, List.length_cons]
      omega
    | false =>
      obtain ⟨hname, hread⟩ := read_name_first hp hfile hfirst
      rw [Part.entry, hname, hread]
      by_cases hsuffix : fileParam <:+ p.name
      · rw [if_pos hsuffix]
        simp only [entrySize, Option.getD_some, List.length_append, List.length_cons]
        omega
      · rw [if_neg hsuffix]
        by_cases hempty : file = []
        · rw [hempty]
          exact Nat.le_add_right _ _
        · rw [if_neg hempty]
          exact Nat.le_refl _

theorem sum_entrySize_le {parts : List Part} (h : ∀ p ∈ parts, p.Quoted) :
    ((parts.map Part.entry).map entrySize).sum ≤
      (((parts.map Part.read).map Part.entry).map entrySize).sum := by
  rw [List.map_map, List.map_map, List.map_map]
  exact List.sum_le_sum fun p hp => entrySize_le_read (h p hp)

/-- A run that misses a delimiter does not give the form. -/
theorem not_broken {f : Form} {s : Sink} (hparams : s.params = tableOf (f.parts.map Part.entry))
    (hcalls : Delivered f.parts s.calls) : ¬Broken f s := by
  rintro (⟨actual, hstored, hacc⟩ | ⟨actual, p, text, hopen, hlong⟩)
  · have hlen := (perm_of_tableOf (hstored.params.symm.trans hparams)).length_eq
    rw [List.length_map, List.length_map] at hlen
    rw [Account, List.length_nil] at hacc
    omega
  · have hperm := perm_of_tableOf (hopen.params.symm.trans hparams)
    have hlen := hperm.length_eq
    simp only [List.length_append, List.length_map, List.length_singleton] at hlen
    obtain ⟨content, hparts, hlt⟩ := hlong.resolve_left (by omega)
    obtain ⟨calls, run, hsplit, hdelivered, hrun, hbytes⟩ := hopen.calls
    by_cases hp : p.file = none
    · -- the table holds more text than the parts have
      have hsum := (hperm.map entrySize).sum_eq
      have hle := sum_entrySize_le f.quoted
      rw [hparts] at hle
      simp only [List.map_append, List.map_cons, List.map_nil, List.sum_append, List.sum_cons,
        List.sum_nil, Part.entry, hp, Option.getD_none, entrySize] at hsum hle
      omega
    · -- no call ends the file
      obtain ⟨file, hfile⟩ := Option.ne_none_iff_exists'.mp hp
      have hkeys := hcalls.eofKeys_eq
      rw [hsplit, eofKeys_append, hdelivered.eofKeys_eq,
        eofKeys_of_not_eof fun c hc => (hrun c hc).2, List.append_nil] at hkeys
      have hread := fileKeys_read_length f.quoted
      rw [hparts, fileKeys_append, ← hkeys, List.length_append] at hread
      simp [fileKeys, hfile] at hread

theorem runStore_tlen {s s' : Sink} {buf : Str} {eof : Bool} (h : runStore s buf eof = .ok s') :
    s'.tlen = s.tlen := by
  unfold runStore at h
  split at h
  · cases h
  all_goals
    obtain rfl := Except.ok.inj h
    rfl

theorem openField_tlen {env : Env} {s s' : Sink} (h : openField env s = .ok s') :
    s'.tlen = s.tlen := by
  unfold openField at h
  split at h
  · split at h
    · obtain rfl := Except.ok.inj h
      rfl
    · next name file _ _ _ =>
      match hinit : initfileval s.params name file with
      | .error e => rw [hinit] at h; cases h
      | .ok params =>
        rw [hinit] at h
        obtain rfl := Except.ok.inj h
        rfl
  · obtain rfl := Except.ok.inj h
    rfl
  · obtain rfl := Except.ok.inj h
    rfl

theorem parseHeaders_tlen {env : Env} {s : Sink} {chunk : Str} {r : Str × Bool × Sink}
    (h : parseHeaders env s chunk = .ok r) : r.2.2.tlen = s.tlen := by
  unfold parseHeaders at h
  dsimp only at h
  split at h
  · match hopen : openField env { s with
        field := { s.field with headers := (headerLines chunk s.field.headers).2 }.complete } with
    | .error e => rw [hopen] at h; cases h
    | .ok s' =>
      rw [hopen] at h
      obtain rfl := Except.ok.inj h
      have htlen := openField_tlen hopen
      exact htlen
  · obtain rfl := Except.ok.inj h
    rfl

theorem closePart_tlen {env : Env} {s s' : Sink} {predata : Str}
    (h : closePart env s predata = .ok s') : s'.tlen = s.tlen := by
  unfold closePart at h
  split at h
  · split at h
    · cases h
    · next hparse =>
      have htlen := parseHeaders_tlen hparse
      split at h
      · cases h
      · split at h
        · cases h
        · split at h
          · obtain rfl := Except.ok.inj h
            exact htlen
          · exact (runStore_tlen h).trans htlen
  · split at h
    · obtain rfl := Except.ok.inj h
      rfl
    · exact runStore_tlen h

theorem scan_tlen {env : Env} {boundary : Str} {s : Sink} {found : Bool} {data : Str}
    {r : Bool × Str × Sink} (h : scan env boundary s found data = .ok r) :
    r.2.2.tlen = s.tlen := by
  rw [scan] at h
  split at h
  · obtain rfl := Except.ok.inj h
    rfl
  · next hfind =>
    split at h
    · cases h
    · next hclose =>
      split at h
      · cases h
      · next hparse =>
        have hscan := scan_tlen h
        have hheaders := parseHeaders_tlen hparse
        have hpart := closePart_tlen hclose
        exact hscan.trans (hheaders.trans hpart)
termination_by data.length
decreasing_by exact (parseHeaders_length ‹_›).trans_lt (findDelimiter_length ‹_›)

theorem fits_of_not_any {contentLength : Option ℕ} {len : ℕ}
    (h : ¬(contentLength.any fun n => len > n + 2) = true) : Fits contentLength len := by
  cases contentLength with
  | none => exact nofun
  | some n =>
    rintro k hk
    obtain rfl := Option.some.inj hk
    simpa using h

/-- A chunk that is accepted is counted and within CONTENT_LENGTH. -/
theorem snk_tlen {env : Env} {boundary : Str} {contentLength : Option ℕ} {s s' : Sink}
    {chunk : Option Str} (h : snk env boundary contentLength s chunk = .ok s') :
    s'.tlen = s.tlen + (chunk.getD []).length ∧ Fits contentLength s'.tlen := by
  unfold snk at h
  dsimp only at h
  split at h
  · cases h
  · next hlength =>
    have hfits := fits_of_not_any hlength
    have htlen : s'.tlen = s.tlen + (chunk.getD []).length := by
      split at h
      · obtain rfl := Except.ok.inj h
        rfl
      · next lchunk _ =>
        split at h
        · cases h
        · next hscan =>
          obtain rfl := Except.ok.inj h
          exact scan_tlen hscan
        · next data s₁ hscan =>
          have htlen := scan_tlen hscan
          split at h
          · match hparse : parseHeaders env s₁ data with
            | .error e => rw [hparse] at h; cases h
            | .ok p =>
              rw [hparse] at h
              obtain rfl := Except.ok.inj h
              have hheaders := parseHeaders_tlen hparse
              exact hheaders.trans htlen
          · match hrun : runStore s₁ lchunk false with
            | .error e => rw [hrun] at h; cases h
            | .ok s₂ =>
              rw [hrun] at h
              obtain rfl := Except.ok.inj h
              have hstore := runStore_tlen hrun
              exact hstore.trans htlen
    exact ⟨htlen, htlen ▸ hfits⟩

theorem pump_fits {env : Env} {boundary : Str} {contentLength : Option ℕ} {chunks : List Str}
    {s s' : Sink} (h : pump env boundary contentLength chunks s = .ok s') :
    Fits contentLength (s.tlen + chunks.flatten.length) := by
  induction chunks generalizing s with
  | nil =>
    obtain ⟨htlen, hfits⟩ := snk_tlen h
    rw [htlen] at hfits
    exact hfits
  | cons chunk chunks ih =>
    rw [pump] at h
    cases hsnk : snk env boundary contentLength s (some chunk) with
    | error e => rw [hsnk] at h; cases h
    | ok s₁ =>
      rw [hsnk] at h
      have hfits := ih h
      rw [(snk_tlen hsnk).1] at hfits
      rw [List.flatten_cons, List.length_append, ← Nat.add_assoc]
      exact hfits

/-- The decoder with a file callback. -/
def callbackEnv (mkstemp : Str → Bool) : Env := ⟨true, mkstemp⟩

def decode (env : Env) (boundary : Str) (contentLength : Option ℕ) (chunks : List Str) :
    Except Failure Sink :=
  mimedecodeMessageBody env (some (multipart ++ boundary)) contentLength chunks fun _ => none

/-- Decoding succeeds, the table has every field under its name and every file by its file
name, and the callback has been handed every file. -/
def Decodes (env : Env) (f : Form) (contentLength : Option ℕ) (chunks : List Str) : Prop :=
  ∃ s, decode env f.boundary contentLength chunks = .ok s ∧
    s.params = tableOf (f.parts.map Part.entry) ∧ Delivered f.parts s.calls

theorem decode_eq {boundary : Str} (hne : boundary ≠ []) (env : Env) (contentLength : Option ℕ)
    (chunks : List Str) : decode env boundary contentLength chunks =
      pump env boundary contentLength chunks (Sink.start fun _ => none) := by
  have hmatch : mimeBoundary (multipart ++ boundary) = some boundary := by
    unfold mimeBoundary
    dsimp only
    rw [List.drop_left, if_pos ⟨List.prefix_append _ _, hne⟩]
  unfold decode mimedecodeMessageBody
  rw [Option.bind_some, hmatch]

theorem decodes_iff (mkstemp : Str → Bool) (f : Form) (contentLength : Option ℕ)
    (chunks : List Str) (hchunks : chunks.flatten = encodeForm f.boundary f.parts)
    (hlong : ∀ chunk ∈ chunks.dropLast, (delimiterLine f.boundary).length ≤ chunk.length) :
    Decodes (callbackEnv mkstemp) f contentLength chunks ↔
      (∀ p ∈ f.parts, p.Plain) ∧ ¬StraddledIn f (chunks.drop 2) ∧
        Fits contentLength (encodeForm f.boundary f.parts).length := by
  have hcb : (callbackEnv mkstemp).filecb = true := rfl
  unfold Decodes
  rw [decode_eq f.boundary_ne_nil]
  constructor
  · rintro ⟨s, hs, hparams, hcalls⟩
    have hfits := pump_fits hs
    have hlen : (Sink.start fun _ => none).tlen + chunks.flatten.length =
        (encodeForm f.boundary f.parts).length := by
      rw [hchunks]
      exact Nat.zero_add _
    rw [hlen] at hfits
    obtain ⟨s', hs', hcases⟩ := pump_form hcb hchunks hlong hfits
    obtain rfl := Except.ok.inj (hs.symm.trans hs')
    rcases hcases with ⟨hno, actual, hstored, hacc⟩ | ⟨_, hbroken⟩
    · refine ⟨fun p hp => (read_eq_iff (f.quoted p hp)).mp ?_, hno, hfits⟩
      rw [Account, List.map_nil, List.append_nil] at hacc
      have hkeys := hcalls.eofKeys_eq.symm.trans hstored.calls.eofKeys_eq
      rw [← hacc] at hkeys
      exact read_of_fileKeys f.quoted hkeys.symm p hp
    · exact absurd hbroken (not_broken hparams hcalls)
  · rintro ⟨hplain, hno, hfits⟩
    obtain ⟨s, hs, hcases⟩ := pump_form hcb hchunks hlong hfits
    obtain ⟨actual, hstored, hacc⟩ := (hcases.resolve_right fun h => hno h.1).2
    rw [Account, List.map_nil, List.append_nil] at hacc
    have hread : f.parts.map Part.read = f.parts :=
      (List.map_congr_left fun p hp => (read_eq_iff (f.quoted p hp)).mpr (hplain p hp)).trans
        (List.map_id _)
    obtain rfl := hread.symm.trans hacc
    exact ⟨s, hs, hstored.params, hstored.calls⟩

/-- The decoder gives an error result. -/
def Refused (env : Env) (boundary : Str) (contentLength : Option ℕ) (chunks : List Str) : Prop :=
  ∃ message, decode env boundary contentLength chunks = .error (.refused message)

theorem snk_exceeds {env : Env} {boundary : Str} {n : ℕ} {s : Sink} {chunk : Option Str}
    (h : n + 2 < s.tlen + (chunk.getD []).length) :
    snk env boundary (some n) s chunk =
      .error (.refused "Message body size exceeds Content-Length") := by
  unfold snk
  exact if_pos (decide_eq_true h)

/-- Nothing can be stored before the first delimiter. -/
theorem snk_no_delimiter {env : Env} {boundary : Str} {contentLength : Option ℕ} {s : Sink}
    {chunk : Option Str} {held : Str} (hheld : s.lchunk = some held) (hinhdr : s.inhdr = false)
    (hstore : s.store = none) (hfits : Fits contentLength (s.tlen + (chunk.getD []).length))
    (hnone : findDelimiter boundary (held ++ chunk.getD []) = none) :
    snk env boundary contentLength s chunk = .error .luaError := by
  rw [snk_content hfits hheld hnone hinhdr]
  unfold runStore
  rw [hstore]
  rfl

theorem fits_or_exceeds (contentLength : Option ℕ) (len : ℕ) :
    Fits contentLength len ∨ ∃ n, contentLength = some n ∧ n + 2 < len := by
  cases contentLength with
  | none => exact Or.inl nofun
  | some n =>
    rcases Nat.lt_or_ge (n + 2) len with hlt | hge
    · exact Or.inr ⟨n, rfl, hlt⟩
    · left
      rintro k hk
      obtain rfl := Option.some.inj hk
      exact hge

/-- The result of the first two chunks, when there is no delimiter in them. -/
theorem decode_late (env : Env) {boundary : Str} (hne : boundary ≠ []) (contentLength : Option ℕ)
    {chunk : Str} (chunks : List Str)
    (hlate : findDelimiter boundary (crlf ++ (chunk :: chunks.take 1).flatten) = none) :
    (Fits contentLength (chunk :: chunks.take 1).flatten.length ∧
        decode env boundary contentLength (chunk :: chunks) = .error .luaError) ∨
      ((∃ n, contentLength = some n ∧ n + 2 < (chunk :: chunks.take 1).flatten.length) ∧
        Refused env boundary contentLength (chunk :: chunks)) := by
  unfold Refused
  rw [decode_eq hne, pump]
  rcases fits_or_exceeds contentLength chunk.length with hfits | ⟨n, rfl, hlt⟩
  · rw [snk_first hfits]
    dsimp only
    cases chunks with
    | nil =>
      have hlen : (chunk :: [].take 1).flatten.length = chunk.length := by simp
      have hnone : findDelimiter boundary (crlf ++ chunk ++ (none : Option Str).getD []) = none := by
        simpa using hlate
      exact Or.inl ⟨hlen ▸ hfits, snk_no_delimiter rfl rfl rfl hfits hnone⟩
    | cons next more =>
      have hlen : (chunk :: (next :: more).take 1).flatten.length = chunk.length + next.length := by
        simp
      have hnone : findDelimiter boundary (crlf ++ chunk ++ next) = none := by
        simpa using hlate
      rw [hlen, pump]
      rcases fits_or_exceeds contentLength (chunk.length + next.length) with hfits₂ | ⟨n, rfl, hlt⟩
      · have hsnk : snk env boundary contentLength (Sink.first chunk) (some next) =
            .error .luaError := snk_no_delimiter rfl rfl rfl hfits₂ hnone
        rw [hsnk]
        exact Or.inl ⟨hfits₂, rfl⟩
      · have hlt' : n + 2 < (Sink.first chunk).tlen + ((some next).getD []).length := hlt
        rw [snk_exceeds hlt']
        exact Or.inr ⟨⟨n, rfl, hlt⟩, _, rfl⟩
  · have hlt' : n + 2 < (Sink.start fun _ => none).tlen + ((some chunk).getD []).length := by
      change n + 2 < 0 + chunk.length
      rw [Nat.zero_add]
      exact hlt
    rw [snk_exceeds hlt']
    refine Or.inr ⟨⟨n, rfl, ?_⟩, _, rfl⟩
    rw [List.flatten_cons, List.length_append]
    omega

/-- Without a delimiter in the first two chunks only CONTENT_LENGTH makes the decoder refuse
the body. -/
theorem refused_iff (env : Env) {boundary : Str} (hne : boundary ≠ []) (contentLength : Option ℕ)
    (chunks : List Str)
    (hlate : findDelimiter boundary (crlf ++ (chunks.take 2).flatten) = none) :
    Refused env boundary contentLength chunks ↔
      ∃ n, contentLength = some n ∧ n + 2 < (chunks.take 2).flatten.length := by
  cases chunks with
  | nil =>
    refine iff_of_false ?_ ?_
    · rintro ⟨message, h⟩
      rw [decode_eq hne, pump] at h
      unfold snk at h
      have hno : ¬(contentLength.any fun n => 0 > n + 2) = true := by
        cases contentLength with
        | none => exact Bool.false_ne_true
        | some n => simp
      cases (if_neg hno).symm.trans h
    · rintro ⟨n, _, hlt⟩
      exact absurd hlt (Nat.not_lt_zero _)
  | cons chunk chunks =>
    rcases decode_late env hne contentLength chunks hlate with ⟨hfits, hdecode⟩ | ⟨hexceeds, hrefused⟩
    · refine iff_of_false ?_ ?_
      · rintro ⟨message, h⟩
        rw [hdecode] at h
        cases h
      · rintro ⟨n, rfl, hlt⟩
        exact absurd (hfits n rfl) (Nat.not_le_of_lt hlt)
    · exact iff_of_true hrefused hexceeds

/-- Decoding inverts the encoding of a form when every header is read as it is meant, no
delimiter is straddled and CONTENT_LENGTH allows for the body. Without a delimiter in the
first two chunks only CONTENT_LENGTH makes the decoder refuse the body. -/
theorem mimedecode_inverts_iff (mkstemp : Str → Bool) :
    (∀ (f : Form) (contentLength : Option ℕ) (chunks : List Str),
      chunks.flatten = encodeForm f.boundary f.parts →
      (∀ chunk ∈ chunks.dropLast, (delimiterLine f.boundary).length ≤ chunk.length) →
        (Decodes (callbackEnv mkstemp) f contentLength chunks ↔
          (∀ p ∈ f.parts, p.Plain) ∧ ¬StraddledIn f (chunks.drop 2) ∧
            Fits contentLength (encodeForm f.boundary f.parts).length)) ∧
    ∀ (boundary : Str) (contentLength : Option ℕ) (chunks : List Str), boundary ≠ [] →
      findDelimiter boundary (crlf ++ (chunks.take 2).flatten) = none →
        (Refused (callbackEnv mkstemp) boundary contentLength chunks ↔
          ∃ n, contentLength = some n ∧ n + 2 < (chunks.take 2).flatten.length) :=
  ⟨decodes_iff mkstemp, fun _ contentLength chunks hne hlate =>
    refused_iff _ hne contentLength chunks hlate⟩

/-- The form "a" with the field "n". -/
def plainForm : Form where
  boundary := [0x61]
  parts := [⟨[0x6e], none, false, [0x78]⟩]
  boundary_ne_nil := by decide
  boundary_line := by decide +kernel
  quoted := by
    intro p hp
    obtain rfl := List.mem_singleton.mp hp
    exact ⟨by decide +kernel, nofun⟩
  separated := by decide

theorem mimedecode_inverts_plain :
    (Decodes (callbackEnv fun _ => true) plainForm none
        [encodeForm plainForm.boundary plainForm.parts] ↔
      (∀ p ∈ plainForm.parts, p.Plain) ∧ ¬StraddledIn plainForm [] ∧
        Fits none (encodeForm plainForm.boundary plainForm.parts).length) ∧
    (Refused (callbackEnv fun _ => true) [0x61] (some 0) [[0x62, 0x62, 0x62]] ↔
      ∃ n, some 0 = some n ∧ n + 2 < [[0x62, 0x62, 0x62]].flatten.length) :=
  ⟨(mimedecode_inverts_iff fun _ => true).1 plainForm none
      [encodeForm plainForm.boundary plainForm.parts] (List.append_nil _) nofun,
    (mimedecode_inverts_iff fun _ => true).2 [0x61] (some 0) [[0x62, 0x62, 0x62]] nofun (by decide)⟩

/-- The form "a" with the file "f" under the name "n", its file name first. -/
def fileFirstForm : Form where
  boundary := [0x61]
  parts := [⟨[0x6e], some [0x66], true, [0x78]⟩]
  boundary_ne_nil := by decide
  boundary_line := by decide +kernel
  quoted := by
    intro p hp
    obtain rfl := List.mem_singleton.mp hp
    refine ⟨by decide +kernel, fun file hfile => ?_⟩
    obtain rfl := Option.some.inj hfile
    decide +kernel
  separated := by decide

/-- The file is stored under its file name. -/
theorem file_first_misread : ¬Decodes (callbackEnv fun _ => true) fileFirstForm none
    [encodeForm fileFirstForm.boundary fileFirstForm.parts] := by
  rintro ⟨s, hs, _, hcalls⟩
  rw [decode_eq fileFirstForm.boundary_ne_nil] at hs
  have hcb : (callbackEnv fun _ => true).filecb = true := rfl
  have hchunks : [encodeForm fileFirstForm.boundary fileFirstForm.parts].flatten =
      encodeForm fileFirstForm.boundary fileFirstForm.parts := List.append_nil _
  have hfits : Fits none (encodeForm fileFirstForm.boundary fileFirstForm.parts).length := nofun
  obtain ⟨s', hs', hcases⟩ := pump_form hcb hchunks nofun hfits
  obtain rfl := Except.ok.inj (hs.symm.trans hs')
  obtain ⟨actual, hstored, hacc⟩ := (hcases.resolve_right fun h => straddledIn_nil h.1).2
  rw [Account, List.map_nil, List.append_nil] at hacc
  have hkeys := hcalls.eofKeys_eq.symm.trans hstored.calls.eofKeys_eq
  rw [← hacc] at hkeys
  revert hkeys
  decide

end Iot7688.LuciMime
