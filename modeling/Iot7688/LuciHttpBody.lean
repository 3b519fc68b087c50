import Iot7688.LuciHttp

/-!
The pump of the body decoder. What is in front of the last separator has been decoded,
and what is behind it waits for the next chunk. The encoded text of parameters holds no
separator, no '=' and no question mark of its own, so its fields are the encoded pairs.
-/
namespace Iot7688.LuciHttp

open Lib

theorem fields_ne_nil (s : Str) : fields s ≠ [] := by
  cases s with
  | nil => exact List.cons_ne_nil _ _
  | cons c cs =>
    rw [fields]
    split
    · exact List.cons_ne_nil _ _
    · exact List.cons_ne_nil _ _

theorem fields_of_sep {c : Byte} (h : isSep c = true) (cs : Str) :
    fields (c :: cs) = [] :: fields cs := if_pos h

theorem fields_of_char {c : Byte} (h : ¬isSep c = true) {cs pair : Str} {rest : List Str}
    (hcs : fields cs = pair :: rest) : fields (c :: cs) = (c :: pair) :: rest := by
  rw [fields, if_neg h, hcs]
  rfl

theorem findSep_some {data pair rest : Str} (h : findSep data = some (pair, rest)) :
    ∃ sep, data = pair ++ sep :: rest := by
  induction data generalizing pair with
  | nil => cases h
  | cons c cs ih =>
    rw [findSep] at h
    split at h
    · injection h with h
      injection h with hpair hrest
      exact ⟨c, by rw [← hpair, ← hrest, List.nil_append]⟩
    · obtain ⟨⟨pair', rest'⟩, hfind, heq⟩ := Option.map_eq_some_iff.mp h
      injection heq with hpair hrest
      subst hrest
      obtain ⟨sep, hcs⟩ := ih hfind
      exact ⟨sep, by rw [← hpair, hcs, List.cons_append]⟩

theorem fields_of_none {data : Str} (h : findSep data = none) : fields data = [data] := by
  induction data with
  | nil => rfl
  | cons c cs ih =>
    rw [findSep] at h
    split at h
    · cases h
    · next hc => exact fields_of_char hc (ih (Option.map_eq_none_iff.mp h))

theorem fields_of_noSep {data : Str} (h : ∀ c ∈ data, isSep c = false) :
    fields data = [data] := by
  induction data with
  | nil => rfl
  | cons c cs ih =>
    obtain ⟨hc, hcs⟩ := List.forall_mem_cons.mp h
    exact fields_of_char (by rw [hc]; exact Bool.false_ne_true) (ih hcs)

theorem fields_of_some {data pair rest : Str} (h : findSep data = some (pair, rest)) :
    fields data = pair :: fields rest := by
  induction data generalizing pair with
  | nil => cases h
  | cons c cs ih =>
    rw [findSep] at h
    split at h
    · next hc =>
      injection h with h
      injection h with hpair hrest
      rw [← hpair, ← hrest, fields_of_sep hc]
    · next hc =>
      obtain ⟨⟨pair', rest'⟩, hfind, heq⟩ := Option.map_eq_some_iff.mp h
      injection heq with hpair hrest
      subst hrest
      rw [← hpair]
      exact fields_of_char hc (ih hfind)

theorem findSep_append {data pair rest : Str} (h : findSep data = some (pair, rest)) (more : Str) :
    findSep (data ++ more) = some (pair, rest ++ more) := by
  induction data generalizing pair with
  | nil => cases h
  | cons c cs ih =>
    rw [List.cons_append, findSep]
    rw [findSep] at h
    split at h
    · next hc =>
      injection h with h
      injection h with hpair hrest
      rw [if_pos hc, ← hpair, ← hrest]
    · next hc =>
      obtain ⟨⟨pair', rest'⟩, hfind, heq⟩ := Option.map_eq_some_iff.mp h
      injection heq with hpair hrest
      subst hrest
      rw [if_neg hc, ih hfind, ← hpair]
      rfl

theorem fields_snoc (s : Str) : fields (s ++ [ampersand]) = fields s ++ [[]] := by
  induction s with
  | nil => rfl
  | cons c cs ih =>
    rw [List.cons_append]
    by_cases hc : isSep c = true
    · rw [fields_of_sep hc, fields_of_sep hc, ih, List.cons_append]
    · obtain ⟨pair, rest, hcs⟩ := List.exists_cons_of_ne_nil (fields_ne_nil cs)
      rw [fields_of_char hc hcs, fields_of_char hc (ih.trans (by rw [hcs, List.cons_append])),
        List.cons_append]

/-- The fields in front of the last separator, and what is behind it. -/
def finished (s : Str) : List Str := (fields s).dropLast
def unfinished (s : Str) : Str := (fields s).getLast (fields_ne_nil s)

theorem finished_of_none {data : Str} (h : findSep data = none) : finished data = [] := by
  rw [finished, fields_of_none h]
  rfl

theorem unfinished_of_none {data : Str} (h : findSep data = none) : unfinished data = data := by
  simp [unfinished, fields_of_none h]

theorem finished_of_some {data pair rest : Str} (h : findSep data = some (pair, rest)) :
    finished data = pair :: finished rest := by
  rw [finished, fields_of_some h, List.dropLast_cons_of_ne_nil (fields_ne_nil rest)]
  rfl

theorem unfinished_of_some {data pair rest : Str} (h : findSep data = some (pair, rest)) :
    unfinished data = unfinished rest := by
  simp [unfinished, fields_of_some h, List.getLast_cons (fields_ne_nil rest)]

theorem finished_snoc (s : Str) : finished (s ++ [ampersand]) = fields s := by
  rw [finished, fields_snoc, List.dropLast_concat]

theorem unfinished_snoc (s : Str) : unfinished (s ++ [ampersand]) = [] := by
  simp [unfinished, fields_snoc]

/-- Only the last field goes on with the text that follows. -/
theorem fields_append (data more : Str) :
    fields (data ++ more) = finished data ++ fields (unfinished data ++ more) := by
  match hfind : findSep data with
  | none => rw [finished_of_none hfind, unfinished_of_none hfind, List.nil_append]
  | some (pair, rest) =>
    have hlen : rest.length < data.length := findSep_length hfind
    rw [fields_of_some (findSep_append hfind more), finished_of_some hfind,
      unfinished_of_some hfind, fields_append rest more, List.cons_append]
termination_by data.length

theorem mem_of_mem_fields {s pair : Str} (h : pair ∈ fields s) : ∀ c ∈ pair, c ∈ s := by
  match hfind : findSep s with
  | none =>
    rw [fields_of_none hfind, List.mem_singleton] at h
    rw [h]
    exact fun c hc => hc
  | some (first, rest) =>
    have hlen : rest.length < s.length := findSep_length hfind
    obtain ⟨sep, hs⟩ := findSep_some hfind
    rw [fields_of_some hfind, List.mem_cons] at h
    intro c hc
    rw [hs, List.mem_append, List.mem_cons]
    rcases h with rfl | h
    · exact Or.inl hc
    · exact Or.inr (Or.inr (mem_of_mem_fields h c hc))
termination_by s.length

/-- The table after more pairs of the body. -/
def addFields (params : Params) (pairs : List Str) : Params :=
  pairs.foldl (fun params pair => addEntry params (bodyEntry pair)) params

theorem addFields_append (params : Params) (l l' : List Str) :
    addFields params (l ++ l') = addFields (addFields params l) l' := List.foldl_append

theorem drain_eq (params : Params) (data : Str) (hspace : ∀ c ∈ data, isSpace c = false) :
    drain params data = .ok (addFields params (finished data), unfinished data) := by
  match hfind : findSep data with
  | none =>
    rw [drain]
    split
    · rw [finished_of_none hfind, unfinished_of_none hfind]
      rfl
    · next r hr => rw [hfind] at hr; cases hr
  | some (pair, rest) =>
    have hlen : rest.length < data.length := findSep_length hfind
    obtain ⟨sep, hdata⟩ := findSep_some hfind
    have hpair : ∀ c ∈ pair, isSpace c = false := fun c hc =>
      hspace c (by rw [hdata]; exact List.mem_append_left _ hc)
    have hrest : ∀ c ∈ rest, isSpace c = false := fun c hc =>
      hspace c (by rw [hdata]; exact List.mem_append_right _ (List.mem_cons_of_mem _ hc))
    rw [drain]
    split
    · next hnone => rw [hfind] at hnone; cases hnone
    · next r hr =>
      obtain rfl := Option.some.inj (hfind.symm.trans hr)
      dsimp only
      rw [bodyPair_eq params hpair]
      dsimp only
      rw [drain_eq _ rest hrest, finished_of_some hfind, unfinished_of_some hfind]
      rfl
termination_by data.length

/-- A text of this length is not refused. -/
def Within (contentLength : Option ℕ) (len : ℕ) : Prop :=
  len ≤ httpMaxContent ∧ ∀ n ∈ contentLength, len ≤ n + 2

theorem Within.mono {contentLength : Option ℕ} {m n : ℕ} (h : Within contentLength n)
    (hle : m ≤ n) : Within contentLength m :=
  ⟨hle.trans h.1, fun k hk => hle.trans (h.2 k hk)⟩

theorem snk_of_within {contentLength : Option ℕ} {s : Sink} {chunk : Option Str}
    (h : Within contentLength (s.tlen + (chunk.getD []).length)) :
    snk contentLength s chunk =
      match s.lchunk with
      | none => .ok ⟨s.tlen + (chunk.getD []).length, chunk, s.params⟩
      | some lchunk =>
          match drain s.params (lchunk ++ chunk.getD [ampersand]) with
          | .error e => .error e
          | .ok r => .ok ⟨s.tlen + (chunk.getD []).length, some r.2, r.1⟩ := by
  have hlength : ¬(contentLength.any fun n => s.tlen + (chunk.getD []).length > n + 2) = true := by
    cases contentLength with
    | none => exact Bool.false_ne_true
    | some n => simpa using h.2 n rfl
  unfold snk
  exact (if_neg hlength).trans (if_neg (Nat.not_lt.mpr h.1))

/-- The sink after the text `seen`: `done` has been decoded, the rest of it waits. -/
structure Fed (params : Params) (seen : Str) (s : Sink) : Prop where
  tlen : s.tlen = seen.length
  split : ∃ done left, s.lchunk = some left ∧ s.params = addFields params done ∧
    (∀ c ∈ left, c ∈ seen) ∧ ∀ more, fields (seen ++ more) = done ++ fields (left ++ more)

theorem fed_first {contentLength : Option ℕ} (params : Params) {chunk : Str}
    (hwithin : Within contentLength chunk.length) :
    ∃ s, snk contentLength ⟨0, none, params⟩ (some chunk) = .ok s ∧ Fed params chunk s := by
  have hlen : 0 + ((some chunk).getD []).length = chunk.length := Nat.zero_add _
  refine ⟨⟨chunk.length, some chunk, params⟩, ?_, rfl, [], chunk, rfl, rfl, fun _ hc => hc,
    fun _ => rfl⟩
  rw [snk_of_within (by rw [hlen]; exact hwithin)]
  dsimp only
  rw [hlen]

/-- One more chunk. -/
theorem Fed.next {contentLength : Option ℕ} {params : Params} {seen : Str} {s : Sink}
    (h : Fed params seen s) {chunk : Str} (hspace : ∀ c ∈ seen ++ chunk, isSpace c = false)
    (hwithin : Within contentLength (seen ++ chunk).length) :
    ∃ s', snk contentLength s (some chunk) = .ok s' ∧ Fed params (seen ++ chunk) s' := by
  obtain ⟨htlen, done, left, hlchunk, hparams, hleft, hfields⟩ := h
  have hlen : s.tlen + ((some chunk).getD []).length = (seen ++ chunk).length := by
    rw [htlen, List.length_append]
    rfl
  have hdata : ∀ c ∈ left ++ chunk, c ∈ seen ++ chunk := by
    intro c hc
    rw [List.mem_append] at hc ⊢
    exact hc.imp_left (hleft c)
  refine ⟨⟨(seen ++ chunk).length, some (unfinished (left ++ chunk)),
    addFields s.params (finished (left ++ chunk))⟩, ?_, rfl, done ++ finished (left ++ chunk),
    unfinished (left ++ chunk), rfl, ?_, ?_, ?_⟩
  · rw [snk_of_within (by rw [hlen]; exact hwithin), hlchunk]
    dsimp only [Option.getD_some]
    rw [drain_eq _ _ fun c hc => hspace c (hdata c hc), ← hlen]
    rfl
  · dsimp only
    rw [hparams, addFields_append]
  · intro c hc
    have hmem : unfinished (left ++ chunk) ∈ fields (left ++ chunk) := List.getLast_mem _
    exact hdata c (mem_of_mem_fields hmem c hc)
  · intro more
    rw [List.append_assoc, hfields, ← List.append_assoc, fields_append, List.append_assoc]

/-- The end of the source decodes what is left. -/
theorem Fed.last {contentLength : Option ℕ} {params : Params} {seen : Str} {s : Sink}
    (h : Fed params seen s) (hspace : ∀ c ∈ seen, isSpace c = false)
    (hwithin : Within contentLength seen.length) :
    (snk contentLength s none).map Sink.params = .ok (addFields params (fields seen)) := by
  obtain ⟨htlen, done, left, hlchunk, hparams, hleft, hfields⟩ := h
  have hleftspace : ∀ c ∈ left ++ [ampersand], isSpace c = false := by
    intro c hc
    rcases List.mem_append.mp hc with hc | hc
    · exact hspace c (hleft c hc)
    · rw [List.mem_singleton.mp hc]
      rfl
  have hseen : fields seen = done ++ fields left := by
    simpa only [List.append_nil] using hfields []
  rw [snk_of_within (by rw [htlen]; exact hwithin), hlchunk]
  dsimp only [Option.getD_none]
  rw [drain_eq _ _ hleftspace, finished_snoc, hparams, ← addFields_append, ← hseen]
  rfl

theorem pump_eq {contentLength : Option ℕ} {params : Params} {seen : Str} {s : Sink}
    (h : Fed params seen s) (chunks : List Str)
    (hspace : ∀ c ∈ seen ++ chunks.flatten, isSpace c = false)
    (hwithin : Within contentLength (seen ++ chunks.flatten).length) :
    (pump contentLength chunks s).map Sink.params =
      .ok (addFields params (fields (seen ++ chunks.flatten))) := by
  induction chunks generalizing seen s with
  | nil =>
    rw [List.flatten_nil, List.append_nil] at *
    exact h.last hspace hwithin
  | cons chunk chunks ih =>
    rw [List.flatten_cons, ← List.append_assoc] at *
    have hlen : (seen ++ chunk).length ≤ (seen ++ chunk ++ chunks.flatten).length :=
      (List.sublist_append_left _ _).length_le
    obtain ⟨s', hs', hnext⟩ := h.next (fun c hc => hspace c (List.mem_append_left _ hc))
      (hwithin.mono hlen)
    rw [pump, hs']
    exact ih hnext hspace hwithin

/-- The entries of the body do not depend on where the chunks end. -/
theorem urldecodeMessageBody_eq {contentLength : Option ℕ} {chunks : List Str} {s : Str}
    (hchunks : chunks.flatten = s) (hspace : ∀ c ∈ s, isSpace c = false)
    (hwithin : Within contentLength s.length) (params : Params) :
    urldecodeMessageBody contentLength chunks params = .ok (addFields params (fields s)) := by
  subst hchunks
  unfold urldecodeMessageBody
  cases chunks with
  | nil =>
    rw [pump, snk_of_within hwithin]
    rfl
  | cons chunk chunks =>
    have hfirst : Within contentLength chunk.length := hwithin.mono (by simp)
    obtain ⟨s', hs', hfed⟩ := fed_first params hfirst
    rw [pump, hs']
    exact pump_eq hfed chunks hspace hwithin

/-- The table of the entries. -/
theorem addFields_none (pairs : List Str) :
    addFields (fun _ => none) pairs = toParams (pairs.filterMap bodyEntry) := by
  induction pairs using List.reverseRecOn with
  | nil => rfl
  | append_singleton pairs pair ih =>
    rw [addFields_append, ih, List.filterMap_append]
    match hentry : bodyEntry pair with
    | none => simp [addFields, addEntry, hentry]
    | some e => simp [addFields, addEntry, hentry, toParams_append]

theorem forall_byte {p : Byte → Prop} (h : ∀ n : Fin 256, p (UInt8.ofFin n)) (c : Byte) : p c :=
  h c.toFin

/-- The characters of encoded text. -/
def isPlain (c : Byte) : Bool :=
  !isSep c && !isSpace c && c != equals && c != plus && c != question

theorem encodeByte_plain (c : Byte) : ∀ d ∈ encodeByte c, isPlain d = true := by
  have hall : ∀ c : Byte, (encodeByte c).all isPlain = true := forall_byte (by decide +kernel)
  exact List.all_eq_true.mp (hall c)

theorem hexDigit_value (c : Byte) :
    isHex (hexDigit (c / 16)) = true ∧ isHex (hexDigit (c % 16)) = true ∧
      16 * hexValue (hexDigit (c / 16)) + hexValue (hexDigit (c % 16)) = c := by
  revert c
  apply forall_byte
  decide +kernel

theorem isKept_ne (c : Byte) : isKept c = true → c ≠ percent := by
  revert c
  apply forall_byte
  decide +kernel

theorem decodeHex_cons_ne {c : Byte} (h : c ≠ percent) (cs : Str) :
    decodeHex (c :: cs) = c :: decodeHex cs := by
  match cs with
  | [] | [_] => rfl
  | _ :: _ :: _ => exact if_neg fun hand => h hand.1

theorem decodeHex_encodeByte (c : Byte) (cs : Str) :
    decodeHex (encodeByte c ++ cs) = c :: decodeHex cs := by
  unfold encodeByte
  split
  · next h => exact decodeHex_cons_ne (isKept_ne c h) cs
  · obtain ⟨hhigh, hlow, hval⟩ := hexDigit_value c
    refine (if_pos ⟨rfl, hhigh, hlow⟩).trans ?_
    rw [hval]
    rfl

theorem decodeHex_urlencode (s : Str) : decodeHex (urlencode s) = s := by
  induction s with
  | nil => rfl
  | cons c cs ih =>
    rw [urlencode, List.flatMap_cons, decodeHex_encodeByte]
    exact congrArg _ ih

theorem urlencode_plain (s : Str) : ∀ c ∈ urlencode s, isPlain c = true := by
  intro c hc
  obtain ⟨d, _, hd⟩ := List.mem_flatMap.mp hc
  exact encodeByte_plain d c hd

theorem isSep_of_plain {c : Byte} (h : isPlain c = true) : isSep c = false := by
  simp only [isPlain, Bool.and_eq_true, Bool.not_eq_true'] at h
  exact h.1.1.1.1

theorem isSpace_of_plain {c : Byte} (h : isPlain c = true) : isSpace c = false := by
  simp only [isPlain, Bool.and_eq_true, Bool.not_eq_true'] at h
  exact h.1.1.1.2

theorem ne_of_plain {c d : Byte} (h : isPlain c = true) (hd : isPlain d = false) : c ≠ d := by
  rintro rfl
  rw [h] at hd
  cases hd

/-- Text without '+' has only the second substitution. -/
theorem urldecode_of_no_plus {s : Str} (h : ∀ c ∈ s, c ≠ plus) :
    urldecode false s = decodeHex s := by
  unfold urldecode
  rw [if_neg Bool.false_ne_true]
  congr 1
  exact (List.map_congr_left fun c hc => if_neg (h c hc)).trans (List.map_id' _)

theorem urldecode_urlencode (s : Str) : urldecode false (urlencode s) = s := by
  rw [urldecode_of_no_plus fun c hc => ne_of_plain (urlencode_plain s c hc) rfl,
    decodeHex_urlencode]

theorem nameOf_append {key : Str} (h : ∀ c ∈ key, c ≠ equals) (val : Str) :
    nameOf (key ++ equals :: val) = key := by
  unfold nameOf
  rw [List.takeWhile_append_of_pos fun c hc => bne_iff_ne.mpr (h c hc)]
  simp

theorem restOf_append {key : Str} (h : ∀ c ∈ key, c ≠ equals) (val : Str) :
    restOf (key ++ equals :: val) = val := by
  unfold restOf
  rw [List.dropWhile_append_of_pos fun c hc => bne_iff_ne.mpr (h c hc)]
  simp

theorem urlencode_ne_nil {s : Str} (h : s ≠ []) : urlencode s ≠ [] := by
  intro hnil
  exact h (by rw [← decodeHex_urlencode s, hnil]; rfl)

theorem urlencode_no_equals (s : Str) : ∀ c ∈ urlencode s, c ≠ equals :=
  fun c hc => ne_of_plain (urlencode_plain s c hc) rfl

theorem paramEntry_encodePair {p : Str × Str} (h : p.1 ≠ []) :
    paramEntry (encodePair p) = some p := by
  unfold paramEntry encodePair
  rw [nameOf_append (urlencode_no_equals p.1), restOf_append (urlencode_no_equals p.1),
    if_neg (urlencode_ne_nil h), urldecode_urlencode, urldecode_urlencode]

theorem bodyEntry_encodePair {p : Str × Str} (h : p.1 ≠ []) :
    bodyEntry (encodePair p) = some (urlencode p.1, p.2) := by
  unfold bodyEntry encodePair
  rw [nameOf_append (urlencode_no_equals p.1), restOf_append (urlencode_no_equals p.1),
    if_pos ⟨List.mem_append_right _ (List.mem_cons_self ..), urlencode_ne_nil h⟩,
    urldecode_urlencode]

/-- The characters of an encoded pair. -/
theorem encodePair_chars (p : Str × Str) : ∀ c ∈ encodePair p, c = equals ∨ isPlain c = true := by
  intro c hc
  rcases List.mem_append.mp hc with hc | hc
  · exact Or.inr (urlencode_plain _ c hc)
  · rw [List.mem_cons] at hc
    exact hc.imp_right (urlencode_plain _ c)

theorem mem_entries {tbl : List (Str × Val)} {p : Str × Str} :
    p ∈ entries tbl ↔ ∃ q ∈ tbl, p.1 = q.1 ∧ p.2 ∈ q.2.list := by
  unfold entries
  rw [List.mem_flatMap]
  constructor
  · rintro ⟨q, hq, hp⟩
    obtain ⟨v, hv, rfl⟩ := List.mem_map.mp hp
    exact ⟨q, hq, rfl, hv⟩
  · rintro ⟨q, hq, hname, hval⟩
    exact ⟨q, hq, List.mem_map.mpr ⟨p.2, hval, Prod.ext hname.symm rfl⟩⟩

/-- The encoded text, pair after pair. -/
def encodePairs (l : List (Str × Str)) : Str :=
  l.foldl (fun enc p => enc ++ (if enc.length > 0 then [ampersand] else []) ++ encodePair p) []

theorem encodePairs_append (l : List (Str × Str)) (p : Str × Str) :
    encodePairs (l ++ [p]) =
      encodePairs l ++ (if (encodePairs l).length > 0 then [ampersand] else []) ++
        encodePair p := by
  unfold encodePairs
  rw [List.foldl_append]
  rfl

theorem encodePairs_ne_nil {l : List (Str × Str)} (h : l ≠ []) : encodePairs l ≠ [] := by
  obtain ⟨init, p, rfl⟩ := (List.eq_nil_or_concat' l).resolve_left h
  rw [encodePairs_append, encodePair]
  simp

theorem fields_encodePair (p : Str × Str) : fields (encodePair p) = [encodePair p] := by
  apply fields_of_noSep
  intro c hc
  rcases encodePair_chars p c hc with rfl | hplain
  · rfl
  · exact isSep_of_plain hplain

/-- The pairs are the fields of the text. -/
theorem fields_encodePairs {l : List (Str × Str)} (h : l ≠ []) :
    fields (encodePairs l) = l.map encodePair := by
  induction l using List.reverseRecOn with
  | nil => exact absurd rfl h
  | append_singleton l p ih =>
    rw [encodePairs_append, List.map_append]
    by_cases hl : l = []
    · subst hl
      exact fields_encodePair p
    · rw [if_pos (List.length_pos_iff.mpr (encodePairs_ne_nil hl)), fields_append,
        finished_snoc, unfinished_snoc, ih hl, List.nil_append, fields_encodePair]
      rfl

theorem encodePairs_chars (l : List (Str × Str)) :
    ∀ c ∈ encodePairs l, c = ampersand ∨ c = equals ∨ isPlain c = true := by
  induction l using List.reverseRecOn with
  | nil => exact fun c hc => absurd hc List.not_mem_nil
  | append_singleton l p ih =>
    intro c hc
    rw [encodePairs_append, List.mem_append, List.mem_append] at hc
    rcases hc with (hc | hc) | hc
    · exact ih c hc
    · left
      split at hc
      · exact List.mem_singleton.mp hc
      · cases hc
    · exact Or.inr (encodePair_chars p c hc)

end Iot7688.LuciHttp
