import Iot7688.LuciHttpBody

/-!
Which tables survive encoding and decoding, where the two decoders agree, and the query of a
request URI. The body decoder leaves names as they are, does not cut at a question mark and
drops a field without '='. The pattern of urldecode_params takes the last question mark that
another character follows, and it wants a character in front of it.
-/
namespace Iot7688.LuciHttp

open Lib

theorem behindQuestion_some {s rest : Str} (h : behindQuestion s = some rest) :
    ∃ front, s = front ++ question :: rest := by
  induction s with
  | nil => cases h
  | cons c cs ih =>
    rw [behindQuestion] at h
    match hcs : behindQuestion cs with
    | some rest' =>
      rw [hcs, Option.some_or] at h
      obtain rfl := Option.some.inj h
      obtain ⟨front, rfl⟩ := ih hcs
      exact ⟨c :: front, rfl⟩
    | none =>
      rw [hcs, Option.none_or] at h
      split at h
      · next hc =>
        obtain rfl := Option.some.inj h
        exact ⟨[], by rw [hc.1, List.nil_append]⟩
      · cases h

/-- What is cut off ends with a question mark and has a character in front of it. -/
theorem cutQuery_cases (s : Str) :
    cutQuery s = s ∨ ∃ front rest, front ≠ [] ∧ s = front ++ question :: rest ∧
      cutQuery s = rest := by
  cases s with
  | nil => exact Or.inl rfl
  | cons c cs =>
    rw [cutQuery]
    match hcs : behindQuestion cs with
    | none => exact Or.inl rfl
    | some rest =>
      obtain ⟨front, rfl⟩ := behindQuestion_some hcs
      exact Or.inr ⟨c :: front, rest, List.cons_ne_nil _ _, rfl, rfl⟩

theorem cutQuery_of_not_mem {s : Str} (h : question ∉ s) : cutQuery s = s := by
  rcases cutQuery_cases s with hs | ⟨front, rest, _, hs, _⟩
  · exact hs
  · exact absurd (hs ▸ List.mem_append_right _ (List.mem_cons_self ..)) h

theorem foldl_addPair (pairs : List Str) :
    (pairs.filter fun pair => pair ≠ []).foldl addPair (fun _ => none) =
      toParams (pairs.filterMap paramEntry) := by
  induction pairs using List.reverseRecOn with
  | nil => rfl
  | append_singleton pairs pair ih =>
    rw [List.filter_append, List.foldl_append, ih, List.filterMap_append]
    by_cases hpair : pair = []
    · subst hpair
      simp [paramEntry, nameOf]
    · cases hentry : paramEntry pair with
      | none => simp [hpair, addPair_eq, addEntry, hentry]
      | some e => simp [hpair, addPair_eq, addEntry, hentry, toParams_append]

theorem urldecodeParams_eq (s : Str) :
    urldecodeParams s (fun _ => none) = toParams ((fields (cutQuery s)).filterMap paramEntry) := by
  have hcut : (if question ∈ s then cutQuery s else s) = cutQuery s := by
    split
    · rfl
    · next h => rw [cutQuery_of_not_mem h]
  unfold urldecodeParams
  rw [hcut]
  exact foldl_addPair _

/-- A table with names that are not empty, in some order of its enumeration. -/
structure Table where
  list : List (Str × Val)
  nodup : (list.map Prod.fst).Nodup
  named : ∀ p ∈ list, p.1 ≠ []

def Table.params (t : Table) : Params := fun key => t.list.lookup key

theorem ofValues_list (v : Val) : ofValues v.list = some v := by
  cases v with
  | one s => rfl
  | many first second rest => rfl

theorem values_of_ne {l : List (Str × Str)} {key : Str} (h : ∀ p ∈ l, p.1 ≠ key) :
    values l key = [] := by
  rw [values, List.filter_eq_nil_iff.mpr fun p hp => by simpa using h p hp, List.map_nil]

theorem values_entries {tbl : List (Str × Val)} (h : (tbl.map Prod.fst).Nodup) (key : Str) :
    ofValues (values (entries tbl) key) = tbl.lookup key := by
  induction tbl with
  | nil => rfl
  | cons q tbl ih =>
    obtain ⟨name, v⟩ := q
    obtain ⟨hfresh, hnodup⟩ := List.nodup_cons.mp h
    have hsplit : entries ((name, v) :: tbl) = v.list.map (fun s => (name, s)) ++ entries tbl :=
      List.flatMap_cons
    rw [hsplit, values_append, List.lookup_cons]
    by_cases hkey : key = name
    · subst hkey
      have hrest : values (entries tbl) key = [] := by
        refine values_of_ne fun p hp heq => hfresh ?_
        obtain ⟨q, hq, hname, _⟩ := mem_entries.mp hp
        exact List.mem_map.mpr ⟨q, hq, hname.symm.trans heq⟩
      have hfirst : values (v.list.map fun s => (key, s)) key = v.list := by
        simp [values, List.filter_map, Function.comp_def]
      rw [hrest, hfirst, List.append_nil, beq_self_eq_true, ofValues_list]
    · have hfirst : values (v.list.map fun s => (name, s)) key = [] := by
        refine values_of_ne fun p hp heq => hkey ?_
        obtain ⟨_, _, rfl⟩ := List.mem_map.mp hp
        exact heq.symm
      rw [hfirst, List.nil_append, ih hnodup, beq_false_of_ne hkey]

theorem toParams_entries (t : Table) : toParams (entries t.list) = t.params := by
  funext key
  rw [toParams_apply, values_entries t.nodup]
  rfl

/-- Both decoders take the encoded table back to the table. -/
def RoundTrips (t : Table) : Prop :=
  urldecodeParams (urlencodeParams t.list) (fun _ => none) = t.params ∧
    ∀ contentLength chunks, chunks.flatten = urlencodeParams t.list →
      Within contentLength (urlencodeParams t.list).length →
        urldecodeMessageBody contentLength chunks (fun _ => none) = .ok t.params

theorem entries_named (t : Table) : ∀ p ∈ entries t.list, p.1 ≠ [] := by
  intro p hp
  obtain ⟨q, hq, hname, _⟩ := mem_entries.mp hp
  rw [hname]
  exact t.named q hq

theorem filterMap_fields {entry : Str → Option (Str × Str)} {e : Str × Str → Str × Str}
    {l : List (Str × Str)} (hnil : entry [] = none)
    (hentry : ∀ p ∈ l, entry (encodePair p) = some (e p)) :
    (fields (encodePairs l)).filterMap entry = l.map e := by
  by_cases hl : l = []
  · subst hl
    simp [encodePairs, fields, hnil]
  · rw [fields_encodePairs hl, List.filterMap_map, ← List.filterMap_eq_map]
    exact List.filterMap_congr hentry

theorem urldecodeParams_urlencodeParams (t : Table) :
    urldecodeParams (urlencodeParams t.list) (fun _ => none) = t.params := by
  have hquestion : question ∉ encodePairs (entries t.list) := by
    intro hmem
    rcases encodePairs_chars _ _ hmem with h | h | h
    · cases h
    · cases h
    · cases h
  have hfields : (fields (encodePairs (entries t.list))).filterMap paramEntry =
      (entries t.list).map id :=
    filterMap_fields rfl fun p hp => paramEntry_encodePair (entries_named t p hp)
  rw [urldecodeParams_eq, ← toParams_entries]
  change toParams ((fields (cutQuery (encodePairs (entries t.list)))).filterMap paramEntry) = _
  rw [cutQuery_of_not_mem hquestion, hfields, List.map_id]

theorem encodePairs_no_space (l : List (Str × Str)) : ∀ c ∈ encodePairs l, isSpace c = false := by
  intro c hc
  rcases encodePairs_chars l c hc with rfl | rfl | hplain
  · rfl
  · rfl
  · exact isSpace_of_plain hplain

/-- The body decoder gives the names back as they are encoded. -/
theorem urldecodeMessageBody_urlencodeParams (t : Table) {contentLength : Option ℕ}
    {chunks : List Str} (hchunks : chunks.flatten = urlencodeParams t.list)
    (hwithin : Within contentLength (urlencodeParams t.list).length) :
    urldecodeMessageBody contentLength chunks (fun _ => none) =
      .ok (toParams ((entries t.list).map fun p => (urlencode p.1, p.2))) := by
  rw [urldecodeMessageBody_eq hchunks (encodePairs_no_space _) hwithin, addFields_none]
  congr 2
  exact filterMap_fields rfl fun p hp => bodyEntry_encodePair (entries_named t p hp)

theorem encodeByte_of_kept {c : Byte} (h : isKept c = true) : encodeByte c = [c] := if_pos h

theorem encodeByte_length_pos (c : Byte) : 1 ≤ (encodeByte c).length := by
  unfold encodeByte
  split
  · exact Nat.le_refl 1
  · exact Nat.le_add_left 1 2

theorem urlencode_cons (c : Byte) (s : Str) : urlencode (c :: s) = encodeByte c ++ urlencode s :=
  List.flatMap_cons

theorem urlencode_length_ge (s : Str) : s.length ≤ (urlencode s).length := by
  induction s with
  | nil => exact Nat.le_refl 0
  | cons c s ih =>
    have := encodeByte_length_pos c
    rw [urlencode_cons, List.length_append, List.length_cons]
    omega

theorem urlencode_of_kept {s : Str} (h : ∀ c ∈ s, isKept c = true) : urlencode s = s := by
  induction s with
  | nil => rfl
  | cons c s ih =>
    obtain ⟨hc, hs⟩ := List.forall_mem_cons.mp h
    rw [urlencode_cons, encodeByte_of_kept hc, ih hs]
    rfl

theorem kept_of_urlencode_length {s : Str} (h : (urlencode s).length = s.length) :
    ∀ c ∈ s, isKept c = true := by
  induction s with
  | nil => exact fun c hc => absurd hc List.not_mem_nil
  | cons c s ih =>
    have hpos := encodeByte_length_pos c
    have hge := urlencode_length_ge s
    rw [urlencode_cons, List.length_append, List.length_cons] at h
    rw [List.forall_mem_cons]
    refine ⟨?_, ih (by omega)⟩
    by_contra hc
    have hthree : (encodeByte c).length = 3 := by
      rw [encodeByte, if_neg hc]
      rfl
    omega

theorem Val.list_ne_nil (v : Val) : v.list ≠ [] := by
  cases v with
  | one s => exact List.cons_ne_nil _ _
  | many first second rest => exact List.cons_ne_nil _ _

/-- The body decoder gives a table back when its names need no encoding. -/
theorem roundTrips_iff (t : Table) :
    RoundTrips t ↔ httpMaxContent < (urlencodeParams t.list).length ∨
      ∀ p ∈ t.list, ∀ c ∈ p.1, isKept c = true := by
  constructor
  · rintro ⟨_, hbody⟩
    by_contra! hcon
    obtain ⟨hlen, q, hq, c, hc, hkept⟩ := hcon
    have hwithin : Within none (urlencodeParams t.list).length := ⟨hlen, nofun⟩
    have hchunks : [urlencodeParams t.list].flatten = urlencodeParams t.list := by simp
    have hsame : toParams ((entries t.list).map fun p => (urlencode p.1, p.2)) =
        toParams (entries t.list) := by
      rw [toParams_entries]
      exact Except.ok.inj ((urldecodeMessageBody_urlencodeParams t hchunks hwithin).symm.trans
        (hbody none _ hchunks hwithin))
    have hsum := ((perm_of_toParams hsame).map fun p => p.1.length).sum_eq
    rw [List.map_map] at hsum
    obtain ⟨v, hv⟩ := List.exists_mem_of_ne_nil _ q.2.list_ne_nil
    have hmem : (q.1, v) ∈ entries t.list := mem_entries.mpr ⟨q, hq, rfl, hv⟩
    have hlength := eq_of_sum_eq (fun p _ => urlencode_length_ge p.1) hsum.symm (q.1, v) hmem
    exact hkept (kept_of_urlencode_length hlength.symm c hc)
  · intro h
    refine ⟨urldecodeParams_urlencodeParams t, fun contentLength chunks hchunks hwithin => ?_⟩
    have hkept := h.resolve_left (Nat.not_lt.mpr hwithin.1)
    rw [urldecodeMessageBody_urlencodeParams t hchunks hwithin, ← toParams_entries]
    congr 2
    refine (List.map_congr_left fun p hp => ?_).trans (List.map_id' _)
    obtain ⟨q, hq, hname, _⟩ := mem_entries.mp hp
    rw [urlencode_of_kept (hname ▸ hkept q hq)]

theorem decodeHex_length_le (s : Str) : (decodeHex s).length ≤ s.length := by
  fun_induction decodeHex s with
  | case1 c a b cs h ih =>
    rw [List.length_cons, List.length_cons, List.length_cons, List.length_cons]
    omega
  | case2 c a b cs h ih =>
    rw [List.length_cons, List.length_cons]
    exact Nat.succ_le_succ ih
  | case3 => exact Nat.le_refl _

theorem decodeHex_of_length {s : Str} (h : (decodeHex s).length = s.length) : decodeHex s = s := by
  fun_induction decodeHex s with
  | case1 c a b cs hcode ih =>
    have hle := decodeHex_length_le cs
    simp only [List.length_cons] at h
    omega
  | case2 c a b cs hcode ih =>
    rw [List.length_cons, List.length_cons] at h
    rw [ih (Nat.succ.inj h)]
  | case3 => rfl

/-- No code goes on over a character that is no hexadecimal digit. -/
theorem decodeHex_split {c : Byte} (hhex : isHex c = false) (s s' : Str) :
    decodeHex (s ++ c :: s') = decodeHex s ++ decodeHex (c :: s') := by
  have hnohex : ¬isHex c = true := by rw [hhex]; exact Bool.false_ne_true
  fun_induction decodeHex s with
  | case1 d a b cs h ih =>
    exact (if_pos h).trans (congrArg _ ih)
  | case2 d a b cs h ih =>
    exact (if_neg h).trans (congrArg _ ih)
  | case3 cs hcs =>
    match cs with
    | [] => rfl
    | [d] =>
      cases s' with
      | nil => rfl
      | cons => exact if_neg fun h => hnohex h.2.1
    | [d, e] =>
      have hd : decodeHex (d :: e :: c :: s') = d :: decodeHex (e :: c :: s') :=
        if_neg fun h => hnohex h.2.2
      have he : decodeHex (e :: c :: s') = e :: decodeHex (c :: s') := by
        cases s' with
        | nil => rfl
        | cons => exact if_neg fun h => hnohex h.2.1
      rw [List.cons_append, List.cons_append, List.nil_append, hd, he]
      rfl
    | d :: e :: f :: rest => exact absurd rfl (hcs d e f rest)

/-- A character that is no part of a code separates what is decoded. -/
theorem decodeHex_append {c : Byte} (hc : c ≠ percent) (hhex : isHex c = false) (s s' : Str) :
    decodeHex (s ++ c :: s') = decodeHex s ++ c :: decodeHex s' := by
  rw [decodeHex_split hhex, decodeHex_cons_ne hc]

theorem urldecode_length_le (s : Str) : (urldecode false s).length ≤ s.length := by
  unfold urldecode
  rw [if_neg Bool.false_ne_true]
  exact (decodeHex_length_le _).trans (List.length_map _).le

theorem urldecode_append {c : Byte} (hplus : c ≠ plus) (hc : c ≠ percent) (hhex : isHex c = false)
    (s s' : Str) :
    urldecode false (s ++ c :: s') = urldecode false s ++ c :: urldecode false s' := by
  simp only [urldecode, if_neg Bool.false_ne_true, List.map_append, List.map_cons, if_neg hplus]
  exact decodeHex_append hc hhex _ _

/-- A decoded text of the same length without a blank is the text. -/
theorem urldecode_of_length {s : Str} (h : (urldecode false s).length = s.length)
    (hblank : ∀ c ∈ urldecode false s, c ≠ 0x20) : urldecode false s = s := by
  unfold urldecode at *
  rw [if_neg Bool.false_ne_true] at *
  have hsame := decodeHex_of_length (h.trans (List.length_map _).symm)
  rw [hsame] at hblank ⊢
  refine (List.map_congr_left fun c hc => ?_).trans (List.map_id' _)
  by_cases hplus : c = plus
  · exact absurd (if_pos hplus) (hblank _ (List.mem_map_of_mem hc))
  · exact if_neg hplus

/-- The decoders agree on a text, however the body is delivered. -/
def Agrees (s : Str) : Prop :=
  ∀ contentLength chunks, chunks.flatten = s → Within contentLength s.length →
    urldecodeMessageBody contentLength chunks (fun _ => none) =
      .ok (urldecodeParams s fun _ => none)

def bodyEntries (s : Str) : List (Str × Str) := (fields s).filterMap bodyEntry
def paramEntries (s : Str) : List (Str × Str) := (fields (cutQuery s)).filterMap paramEntry

theorem agrees_iff {s : Str} (hspace : ∀ c ∈ s, isSpace c = false) :
    Agrees s ↔ httpMaxContent < s.length ∨
      toParams (bodyEntries s) = toParams (paramEntries s) := by
  constructor
  · intro h
    by_contra! hcon
    have hwithin : Within none s.length := ⟨hcon.1, nofun⟩
    have hchunks : [s].flatten = s := by simp
    have hbody := h none [s] hchunks hwithin
    rw [urldecodeMessageBody_eq hchunks hspace hwithin, addFields_none, urldecodeParams_eq] at hbody
    exact hcon.2 (Except.ok.inj hbody)
  · intro h contentLength chunks hchunks hwithin
    rw [urldecodeMessageBody_eq hchunks hspace hwithin, addFields_none, urldecodeParams_eq]
    exact congrArg _ (h.resolve_left (Nat.not_lt.mpr hwithin.1))

theorem sum_filterMap (entry : Str → Option (Str × Str)) (measure : Str × Str → ℕ) (l : List Str) :
    ((l.filterMap entry).map measure).sum =
      (l.map fun pair => (entry pair).elim 0 measure).sum := by
  induction l with
  | nil => rfl
  | cons pair l ih =>
    rw [List.filterMap_cons, List.map_cons, List.sum_cons, ← ih]
    cases entry pair with
    | none => exact (Nat.zero_add _).symm
    | some e => rfl

theorem bodyEntry_of_equals {pair : Str} (h : equals ∈ pair) (hname : nameOf pair ≠ []) :
    bodyEntry pair = some (nameOf pair, urldecode false (restOf pair)) := if_pos ⟨h, hname⟩

theorem paramEntry_of_name {pair : Str} (hname : nameOf pair ≠ []) :
    paramEntry pair = some (urldecode false (nameOf pair), urldecode false (restOf pair)) :=
  if_neg hname

theorem bodyEntry_of_no_name {pair : Str} (hname : nameOf pair = []) : bodyEntry pair = none :=
  if_neg fun h => h.2 hname

theorem paramEntry_of_no_name {pair : Str} (hname : nameOf pair = []) : paramEntry pair = none :=
  if_pos hname

theorem body_count_le (pair : Str) :
    ((bodyEntry pair).elim 0 fun _ => 1) ≤ (paramEntry pair).elim 0 fun _ => 1 := by
  by_cases hname : nameOf pair = []
  · rw [bodyEntry_of_no_name hname]
    exact Nat.zero_le _
  · rw [paramEntry_of_name hname]
    cases bodyEntry pair with
    | none => exact Nat.zero_le 1
    | some e => exact Nat.le_refl 1

theorem mem_bodyEntries_name {s : Str} {e : Str × Str} (h : e ∈ bodyEntries s) :
    ∀ c ∈ e.1, c ∈ s := by
  obtain ⟨pair, hpair, hentry⟩ := List.mem_filterMap.mp h
  unfold bodyEntry at hentry
  split at hentry
  · obtain rfl := Option.some.inj hentry
    intro c hc
    exact mem_of_mem_fields hpair c ((List.takeWhile_subset _) hc)
  · cases hentry

/-- Every field with a name has an '=', and its name decodes to itself. -/
def Named (s : Str) : Prop :=
  ∀ pair ∈ fields s, nameOf pair ≠ [] →
    equals ∈ pair ∧ urldecode false (nameOf pair) = nameOf pair

theorem bodyEntries_of_named {s : Str} (hcut : cutQuery s = s) (h : Named s) :
    bodyEntries s = paramEntries s := by
  unfold bodyEntries paramEntries
  rw [hcut]
  apply List.filterMap_congr
  intro pair hpair
  by_cases hname : nameOf pair = []
  · rw [bodyEntry_of_no_name hname, paramEntry_of_no_name hname]
  · obtain ⟨hequals, hdecode⟩ := h pair hpair hname
    rw [bodyEntry_of_equals hequals hname, paramEntry_of_name hname, hdecode]

/-- With the same entries no field is lost, and no name gets shorter. -/
theorem named_of_perm {s : Str} (hspace : ∀ c ∈ s, isSpace c = false) (hcut : cutQuery s = s)
    (hperm : (bodyEntries s).Perm (paramEntries s)) : Named s := by
  have hparam : paramEntries s = (fields s).filterMap paramEntry := by rw [paramEntries, hcut]
  have hcount := (hperm.map fun _ => 1).sum_eq
  rw [hparam, bodyEntries, sum_filterMap, sum_filterMap] at hcount
  have hequals : ∀ pair ∈ fields s, nameOf pair ≠ [] → equals ∈ pair := by
    intro pair hpair hname
    have hone := eq_of_sum_eq (fun pair _ => body_count_le pair) hcount pair hpair
    rw [paramEntry_of_name hname] at hone
    by_contra hmem
    rw [bodyEntry, if_neg fun h => hmem h.1] at hone
    cases hone
  have hlength := (hperm.map fun e => e.1.length).sum_eq
  rw [hparam, bodyEntries, sum_filterMap, sum_filterMap] at hlength
  have hshorter : ∀ pair ∈ fields s, ((paramEntry pair).elim 0 fun e => e.1.length) ≤
      (bodyEntry pair).elim 0 fun e => e.1.length := by
    intro pair hpair
    by_cases hname : nameOf pair = []
    · rw [paramEntry_of_no_name hname]
      exact Nat.zero_le _
    · rw [paramEntry_of_name hname, bodyEntry_of_equals (hequals pair hpair hname) hname]
      exact urldecode_length_le _
  intro pair hpair hname
  have hpairEquals := hequals pair hpair hname
  refine ⟨hpairEquals, ?_⟩
  have hsame := eq_of_sum_eq hshorter hlength.symm pair hpair
  rw [paramEntry_of_name hname, bodyEntry_of_equals hpairEquals hname] at hsame
  refine urldecode_of_length hsame fun c hc hblank => ?_
  have hmem : (urldecode false (nameOf pair), urldecode false (restOf pair)) ∈ paramEntries s := by
    rw [hparam]
    exact List.mem_filterMap.mpr ⟨pair, hpair, paramEntry_of_name hname⟩
  have hcs := hspace c (mem_bodyEntries_name (hperm.mem_iff.mpr hmem) c hc)
  rw [hblank] at hcs
  cases hcs

theorem pair_split {pair : Str} (h : equals ∈ pair) :
    pair = nameOf pair ++ equals :: restOf pair := by
  induction pair with
  | nil => cases h
  | cons c cs ih =>
    by_cases hc : c = equals
    · subst hc
      simp [nameOf, restOf]
    · have hcs := ih ((List.mem_cons.mp h).resolve_left (Ne.symm hc))
      simpa [nameOf, restOf, hc] using hcs

theorem nameOf_of_not_mem {pair : Str} (h : equals ∉ pair) : nameOf pair = pair := by
  apply List.takeWhile_eq_self_iff.mpr
  intro c hc
  exact bne_iff_ne.mpr fun heq => h (heq ▸ hc)

theorem restOf_of_not_mem {pair : Str} (h : equals ∉ pair) : restOf pair = [] := by
  unfold restOf
  rw [List.dropWhile_eq_nil_iff.mpr]
  · rfl
  · intro c hc
    exact bne_iff_ne.mpr fun heq => h (heq ▸ hc)

theorem urldecode_pair {pair : Str} (h : equals ∈ pair) :
    (urldecode false pair).length =
      (urldecode false (nameOf pair)).length + (urldecode false (restOf pair)).length + 1 := by
  conv_lhs => rw [pair_split h, urldecode_append (by decide) (by decide) rfl]
  rw [List.length_append, List.length_cons]
  rfl

/-- The characters of an entry, with its '='. -/
def size (e : Str × Str) : ℕ := e.1.length + e.2.length + 1

theorem param_size_le (pair : Str) :
    (paramEntry pair).elim 0 size ≤ (urldecode false pair).length + 1 := by
  by_cases hname : nameOf pair = []
  · rw [paramEntry_of_no_name hname]
    exact Nat.zero_le _
  · rw [paramEntry_of_name hname]
    by_cases h : equals ∈ pair
    · rw [urldecode_pair h]
      exact Nat.le_succ _
    · rw [nameOf_of_not_mem h, restOf_of_not_mem h]
      exact Nat.le_refl _

theorem body_size_ge {pair : Str} (h : equals ∈ pair) (hname : nameOf pair ≠ []) :
    (urldecode false pair).length ≤ (bodyEntry pair).elim 0 size := by
  have hle := urldecode_length_le (nameOf pair)
  rw [bodyEntry_of_equals h hname, urldecode_pair h]
  change _ ≤ (nameOf pair).length + (urldecode false (restOf pair)).length + 1
  omega

theorem param_size_le_body {pair : Str} (h : equals ∈ pair) (hname : nameOf pair ≠ []) :
    (paramEntry pair).elim 0 size ≤ (bodyEntry pair).elim 0 size := by
  have hle := urldecode_length_le (nameOf pair)
  rw [bodyEntry_of_equals h hname, paramEntry_of_name hname]
  exact Nat.succ_le_succ (Nat.add_le_add_right hle _)

theorem isSep_of_mem_fields {s pair : Str} (h : pair ∈ fields s) : ∀ c ∈ pair, isSep c = false := by
  induction s generalizing pair with
  | nil =>
    rw [List.mem_singleton.mp h]
    exact fun c hc => absurd hc List.not_mem_nil
  | cons d cs ih =>
    by_cases hd : isSep d = true
    · rw [fields_of_sep hd, List.mem_cons] at h
      rcases h with rfl | h
      · exact fun c hc => absurd hc List.not_mem_nil
      · exact ih h
    · obtain ⟨first, rest, hcs⟩ := List.exists_cons_of_ne_nil (fields_ne_nil cs)
      rw [hcs] at ih
      rw [fields_of_char hd hcs, List.mem_cons] at h
      rcases h with rfl | h
      · rw [List.forall_mem_cons]
        exact ⟨Bool.eq_false_iff.mpr hd, ih (List.mem_cons_self ..)⟩
      · exact ih (List.mem_cons_of_mem _ h)

theorem fields_prepend {front s pair : Str} {rest : List Str}
    (hfront : ∀ c ∈ front, isSep c = false) (h : fields s = pair :: rest) :
    fields (front ++ s) = (front ++ pair) :: rest := by
  induction front with
  | nil => exact h
  | cons c front ih =>
    obtain ⟨hc, hrest⟩ := List.forall_mem_cons.mp hfront
    exact fields_of_char (Bool.eq_false_iff.mp hc) (ih hrest)

theorem unfinished_of_finished {s : Str} (h : finished s = []) : unfinished s = s := by
  match hfind : findSep s with
  | none => exact unfinished_of_none hfind
  | some (pair, rest) =>
    rw [finished_of_some hfind] at h
    cases h

/-- What is cut off in front of the question mark is missed in the table. -/
theorem not_perm_of_cut {s : Str} (hpairs : ∀ pair ∈ fields s, equals ∈ pair ∧ nameOf pair ≠ [])
    (hcut : cutQuery s ≠ s) : ¬(bodyEntries s).Perm (paramEntries s) := by
  intro hperm
  obtain ⟨front, rest, hfront, hs, hrest⟩ := (cutQuery_cases s).resolve_left hcut
  obtain ⟨pair, more, hfields⟩ := List.exists_cons_of_ne_nil (fields_ne_nil rest)
  have hquestion : fields (question :: rest) = (question :: pair) :: more :=
    fields_of_char (by decide) hfields
  have hunfinished : ∀ c ∈ unfinished front, isSep c = false :=
    isSep_of_mem_fields (List.getLast_mem _)
  have hsplit : fields s = finished front ++ (unfinished front ++ question :: pair) :: more := by
    rw [hs, fields_append, fields_prepend hunfinished hquestion]
  have hparam : paramEntries s = (pair :: more).filterMap paramEntry := by
    rw [paramEntries, hrest, hfields]
  have hbody : bodyEntries s =
      (fields s).map fun pair => (nameOf pair, urldecode false (restOf pair)) := by
    rw [← List.filterMap_eq_map]
    exact List.filterMap_congr fun pair hpair =>
      bodyEntry_of_equals (hpairs pair hpair).1 (hpairs pair hpair).2
  -- the number of entries leaves no field in front of the cut one
  have hlen : (bodyEntries s).length ≤ (pair :: more).length := by
    rw [hperm.length_eq, hparam]
    exact List.length_filterMap_le _ _
  rw [hbody, hsplit, List.length_map, List.length_append, List.length_cons,
    List.length_cons] at hlen
  have hfinished : finished front = [] := List.length_eq_zero_iff.mp (by omega)
  rw [hfinished, List.nil_append, unfinished_of_finished hfinished] at hsplit
  rw [hsplit, List.forall_mem_cons] at hpairs
  obtain ⟨⟨hequals, hname⟩, hmore⟩ := hpairs
  have hsum := (hperm.map size).sum_eq
  rw [hparam, bodyEntries, hsplit, sum_filterMap, sum_filterMap, List.map_cons, List.map_cons,
    List.sum_cons, List.sum_cons] at hsum
  have hle : (more.map fun pair => (paramEntry pair).elim 0 size).sum ≤
      (more.map fun pair => (bodyEntry pair).elim 0 size).sum :=
    List.sum_le_sum fun pair hpair => param_size_le_body (hmore pair hpair).1 (hmore pair hpair).2
  have hbig := body_size_ge hequals hname
  have hsmall := param_size_le pair
  have hpos : 0 < (urldecode false front).length :=
    List.length_pos_iff.mpr (urldecode_ne_nil hfront)
  rw [urldecode_append (by decide) (by decide) rfl, List.length_append, List.length_cons] at hbig
  omega

/-- Tables survive both decoders when their names need no encoding, and the decoders agree
on pairs when nothing is cut off and every name decodes to itself. -/
theorem urldecode_decoders_iff (t : Table) {s : Str} (hspace : ∀ c ∈ s, isSpace c = false)
    (hpairs : cutQuery s = s ∨ ∀ pair ∈ fields s, equals ∈ pair ∧ nameOf pair ≠ []) :
    (RoundTrips t ↔ httpMaxContent < (urlencodeParams t.list).length ∨
      ∀ p ∈ t.list, ∀ c ∈ p.1, isKept c = true) ∧
    (Agrees s ↔ httpMaxContent < s.length ∨ cutQuery s = s ∧ Named s) := by
  refine ⟨roundTrips_iff t, ?_⟩
  rw [agrees_iff hspace]
  refine or_congr_right ⟨fun h => ?_, fun ⟨hcut, hnamed⟩ => ?_⟩
  · have hperm := perm_of_toParams h
    have hcut : cutQuery s = s := by
      by_contra hcut
      exact not_perm_of_cut (hpairs.resolve_left hcut) hcut hperm
    exact ⟨hcut, named_of_perm hspace hcut hperm⟩
  · rw [bodyEntries_of_named hcut hnamed]

/-- The name "a b". -/
def blankName : Table where
  list := [([0x61, 0x20, 0x62], .one [0x63])]
  nodup := by decide
  named := by decide

/-- The table with that name, and the pair "a=b". -/
theorem urldecode_decoders_plain :
    (RoundTrips blankName ↔ httpMaxContent < (urlencodeParams blankName.list).length ∨
      ∀ p ∈ blankName.list, ∀ c ∈ p.1, isKept c = true) ∧
    (Agrees [0x61, 0x3d, 0x62] ↔ httpMaxContent < ([0x61, 0x3d, 0x62] : Str).length ∨
      cutQuery [0x61, 0x3d, 0x62] = [0x61, 0x3d, 0x62] ∧ Named [0x61, 0x3d, 0x62]) :=
  urldecode_decoders_iff blankName (by decide +kernel) (Or.inl (by decide))

/-- The name comes back from the body as "a%20b", and its text is read in two ways. -/
theorem encoded_name_kept : ¬RoundTrips blankName ∧ ¬Agrees (urlencodeParams blankName.list) := by
  have hwithin : Within none (urlencodeParams blankName.list).length := ⟨by decide, nofun⟩
  have hchunks : [urlencodeParams blankName.list].flatten = urlencodeParams blankName.list := rfl
  have hbody := urldecodeMessageBody_urlencodeParams blankName hchunks hwithin
  have hdiffer : toParams ((entries blankName.list).map fun p => (urlencode p.1, p.2)) ≠
      blankName.params := by
    intro h
    have hname := congrFun h [0x61, 0x20, 0x62]
    revert hname
    decide
  refine ⟨fun h => ?_, fun h => ?_⟩
  · exact hdiffer (Except.ok.inj (hbody.symm.trans (h.2 none _ hchunks hwithin)))
  · have hagree := hbody.symm.trans (h none _ hchunks hwithin)
    rw [urldecodeParams_urlencodeParams] at hagree
    exact hdiffer (Except.ok.inj hagree)

/-- The text with every question mark percent-encoded. -/
def encodeQuestions (s : Str) : Str :=
  s.flatMap fun c => if c = question then [percent, 0x33, 0x46] else [c]

theorem encodeQuestions_question (s : Str) :
    encodeQuestions (question :: s) = percent :: 0x33 :: 0x46 :: encodeQuestions s := rfl

theorem encodeQuestions_cons {c : Byte} (hc : c ≠ question) (s : Str) :
    encodeQuestions (c :: s) = c :: encodeQuestions s := by
  unfold encodeQuestions
  rw [List.flatMap_cons, if_neg hc]
  rfl

theorem encodeQuestions_append (s s' : Str) :
    encodeQuestions (s ++ s') = encodeQuestions s ++ encodeQuestions s' := List.flatMap_append

theorem encodeQuestions_of_not_mem {s : Str} (h : question ∉ s) : encodeQuestions s = s := by
  induction s with
  | nil => rfl
  | cons c s ih =>
    obtain ⟨hc, hs⟩ := not_or.mp (mt List.mem_cons.mpr h)
    rw [encodeQuestions_cons (Ne.symm hc), ih hs]

theorem question_not_mem_encodeQuestions (s : Str) : question ∉ encodeQuestions s := by
  induction s with
  | nil => exact List.not_mem_nil
  | cons c s ih =>
    by_cases hc : c = question
    · subst hc
      rw [encodeQuestions_question]
      intro hmem
      rcases List.mem_cons.mp hmem with h | hmem
      · exact absurd h (by decide)
      · rcases List.mem_cons.mp hmem with h | hmem
        · exact absurd h (by decide)
        · exact (List.mem_cons.mp hmem).elim (fun h => absurd h (by decide)) ih
    · rw [encodeQuestions_cons hc]
      intro hmem
      exact (List.mem_cons.mp hmem).elim (fun h => hc h.symm) ih

/-- The code of the question mark is decoded to the question mark. -/
theorem decodeHex_encodeQuestions (s : Str) : decodeHex (encodeQuestions s) = decodeHex s := by
  by_cases h : question ∈ s
  · obtain ⟨front, rest, rfl, hfront⟩ := List.eq_append_cons_of_mem h
    have ih := decodeHex_encodeQuestions rest
    rw [encodeQuestions_append, encodeQuestions_of_not_mem hfront, encodeQuestions_question,
      decodeHex_split rfl, decodeHex_append (by decide) rfl]
    exact congrArg (decodeHex front ++ question :: ·) ih
  · rw [encodeQuestions_of_not_mem h]
termination_by s.length
decreasing_by
  subst_vars
  simp only [List.length_append, List.length_cons]
  omega

theorem urldecode_encodeQuestions (s : Str) :
    urldecode false (encodeQuestions s) = urldecode false s := by
  have hmap : ∀ s : Str, (encodeQuestions s).map (fun c => if c = plus then 0x20 else c) =
      encodeQuestions (s.map fun c => if c = plus then 0x20 else c) := by
    intro s
    induction s with
    | nil => rfl
    | cons c s ih =>
      by_cases hc : c = question
      · subst hc
        exact congrArg (fun t => percent :: 0x33 :: 0x46 :: t) ih
      · have hspace : (if c = plus then 0x20 else c) ≠ question := by
          split
          · decide
          · exact hc
        rw [encodeQuestions_cons hc, List.map_cons, List.map_cons, encodeQuestions_cons hspace, ih]
  unfold urldecode
  rw [if_neg Bool.false_ne_true, if_neg Bool.false_ne_true, hmap, decodeHex_encodeQuestions]

theorem nameOf_cons {c : Byte} (hc : c ≠ equals) (s : Str) : nameOf (c :: s) = c :: nameOf s :=
  List.takeWhile_cons_of_pos (bne_iff_ne.mpr hc)

theorem restOf_cons {c : Byte} (hc : c ≠ equals) (s : Str) : restOf (c :: s) = restOf s :=
  congrArg List.tail (List.dropWhile_cons_of_pos (bne_iff_ne.mpr hc))

theorem nameOf_encodeQuestions (s : Str) :
    nameOf (encodeQuestions s) = encodeQuestions (nameOf s) := by
  induction s with
  | nil => rfl
  | cons c s ih =>
    by_cases hc : c = question
    · subst hc
      exact congrArg (fun t => percent :: 0x33 :: 0x46 :: t) ih
    · rw [encodeQuestions_cons hc]
      by_cases hequals : c = equals
      · subst hequals
        rfl
      · rw [nameOf_cons hequals, nameOf_cons hequals, encodeQuestions_cons hc, ih]

theorem restOf_encodeQuestions (s : Str) :
    restOf (encodeQuestions s) = encodeQuestions (restOf s) := by
  induction s with
  | nil => rfl
  | cons c s ih =>
    by_cases hc : c = question
    · subst hc
      exact ih
    · rw [encodeQuestions_cons hc]
      by_cases hequals : c = equals
      · subst hequals
        rfl
      · rw [restOf_cons hequals, restOf_cons hequals, ih]

theorem encodeQuestions_eq_nil {s : Str} : encodeQuestions s = [] ↔ s = [] := by
  constructor
  · intro h
    cases s with
    | nil => rfl
    | cons c s =>
      by_cases hc : c = question
      · subst hc
        cases h
      · rw [encodeQuestions_cons hc] at h
        cases h
  · rintro rfl
    rfl

theorem paramEntry_encodeQuestions (pair : Str) :
    paramEntry (encodeQuestions pair) = paramEntry pair := by
  unfold paramEntry
  rw [nameOf_encodeQuestions, restOf_encodeQuestions, urldecode_encodeQuestions,
    urldecode_encodeQuestions]
  by_cases h : nameOf pair = []
  · rw [if_pos h, if_pos (encodeQuestions_eq_nil.mpr h)]
  · rw [if_neg h, if_neg fun hnil => h (encodeQuestions_eq_nil.mp hnil)]

theorem fields_encodeQuestions (s : Str) :
    fields (encodeQuestions s) = (fields s).map encodeQuestions := by
  induction s with
  | nil => rfl
  | cons c s ih =>
    obtain ⟨pair, more, hs⟩ := List.exists_cons_of_ne_nil (fields_ne_nil s)
    rw [hs, List.map_cons] at ih
    by_cases hc : c = question
    · subst hc
      rw [fields_of_char (by decide) hs]
      have hcode : ∀ c ∈ ([percent, 0x33, 0x46] : Str), isSep c = false := by decide +kernel
      exact fields_prepend hcode ih
    · rw [encodeQuestions_cons hc]
      by_cases hsep : isSep c = true
      · rw [fields_of_sep hsep, fields_of_sep hsep, ih, hs]
        rfl
      · rw [fields_of_char hsep ih, fields_of_char hsep hs, List.map_cons, encodeQuestions_cons hc]

/-- The names and values of a text, with nothing cut off. -/
def fieldEntries (s : Str) : List (Str × Str) := (fields s).filterMap paramEntry

theorem urldecodeParams_encodeQuestions (s : Str) :
    urldecodeParams (encodeQuestions s) (fun _ => none) = toParams (fieldEntries s) := by
  rw [urldecodeParams_eq, cutQuery_of_not_mem (question_not_mem_encodeQuestions s),
    fields_encodeQuestions, List.filterMap_map]
  congr 1
  exact List.filterMap_congr fun pair _ => paramEntry_encodeQuestions pair

theorem values_eq_of_toParams {l l' : List (Str × Str)} (h : toParams l = toParams l')
    (key : Str) : values l key = values l' key := by
  refine ofValues_injective ?_
  rw [← toParams_apply, ← toParams_apply, h]

/-- Of two tables with the same end, one of them with one entry more at most. -/
theorem toParams_append_iff {a b l : List (Str × Str)} (hb : b.length ≤ 1) :
    toParams (a ++ l) = toParams (b ++ l) ↔ a = b := by
  refine ⟨fun h => ?_, fun h => by rw [h]⟩
  have hperm : a.Perm b := by
    refine perm_of_values fun key => ?_
    have hvalues := values_eq_of_toParams h key
    rw [values_append, values_append] at hvalues
    exact List.append_cancel_right hvalues
  match b, hb with
  | [], _ => exact hperm.eq_nil
  | [_], _ => exact hperm.eq_singleton

theorem nameOf_eq_nil {pair : Str} (h : pair ≠ []) :
    nameOf pair = [] ↔ pair.head? = some equals := by
  obtain ⟨c, cs, rfl⟩ := List.exists_cons_of_ne_nil h
  by_cases hc : c = equals
  · subst hc
    exact ⟨fun _ => rfl, fun _ => rfl⟩
  · rw [nameOf_cons hc]
    exact ⟨fun h => absurd h (List.cons_ne_nil _ _), fun h => absurd (Option.some.inj h) hc⟩

theorem size_of_equals {pair : Str} (h : equals ∈ pair) :
    size (urldecode false (nameOf pair), urldecode false (restOf pair)) =
      (urldecode false pair).length := (urldecode_pair h).symm

theorem size_of_no_equals {pair : Str} (h : equals ∉ pair) :
    size (urldecode false (nameOf pair), urldecode false (restOf pair)) =
      (urldecode false pair).length + 1 := by
  rw [nameOf_of_not_mem h, restOf_of_not_mem h]
  rfl

/-- A text in front of the question mark makes the entry longer. -/
theorem paramEntry_front_ne {front : Str} (h : front.head? ≠ some equals) (pair : Str) :
    ∃ e, paramEntry (front ++ question :: pair) = some e ∧ paramEntry pair ≠ some e := by
  have hname : nameOf (front ++ question :: pair) ≠ [] := by
    rw [Ne, nameOf_eq_nil (List.append_ne_nil_of_right_ne_nil _ (List.cons_ne_nil _ _))]
    cases front with
    | nil => exact fun heq => absurd (Option.some.inj heq) (by decide)
    | cons c cs => exact h
  refine ⟨_, paramEntry_of_name hname, fun heq => ?_⟩
  have hdecoded : (urldecode false (front ++ question :: pair)).length =
      (urldecode false front).length + ((urldecode false pair).length + 1) := by
    rw [urldecode_append (by decide) (by decide) rfl, List.length_append, List.length_cons]
  have hpair : nameOf pair ≠ [] := by
    intro hnil
    rw [paramEntry_of_no_name hnil] at heq
    cases heq
  rw [paramEntry_of_name hpair] at heq
  have hsize := congrArg size (Option.some.inj heq)
  by_cases hmem : equals ∈ pair
  · have hlong : equals ∈ front ++ question :: pair :=
      List.mem_append_right _ (List.mem_cons_of_mem _ hmem)
    rw [size_of_equals hmem, size_of_equals hlong, hdecoded] at hsize
    omega
  · rw [size_of_no_equals hmem] at hsize
    by_cases hlong : equals ∈ front ++ question :: pair
    · have hfront : equals ∈ front := by
        rcases List.mem_append.mp hlong with hfront | hrest
        · exact hfront
        · exact absurd ((List.mem_cons.mp hrest).resolve_left (by decide)) hmem
      have hpos : 0 < (urldecode false front).length :=
        List.length_pos_iff.mpr (urldecode_ne_nil (List.ne_nil_of_mem hfront))
      rw [size_of_equals hlong, hdecoded] at hsize
      omega
    · rw [size_of_no_equals hlong, hdecoded] at hsize
      omega

/-- A text that can stand in front of a question mark without a change of the table: its
last field has no name, and the fields before it have the entry of the field behind. -/
def Harmless (front text : Str) : Prop :=
  (unfinished front).head? = some equals ∧
    (finished front).filterMap paramEntry = (paramEntry ((fields text).headD [])).toList

instance (front text : Str) : Decidable (Harmless front text) := by
  unfold Harmless
  infer_instance

theorem toParams_front_iff (front text : Str) :
    toParams (fieldEntries (front ++ question :: text)) = toParams (fieldEntries text) ↔
      Harmless front text := by
  obtain ⟨pair, more, htext⟩ := List.exists_cons_of_ne_nil (fields_ne_nil text)
  have hquestion : fields (question :: text) = (question :: pair) :: more :=
    fields_of_char (by decide) htext
  have hunfinished : ∀ c ∈ unfinished front, isSep c = false :=
    isSep_of_mem_fields (List.getLast_mem _)
  have hfields : fields (front ++ question :: text) =
      finished front ++ (unfinished front ++ question :: pair) :: more := by
    rw [fields_append, fields_prepend hunfinished hquestion]
  have hleft : fieldEntries (front ++ question :: text) =
      ((finished front).filterMap paramEntry ++
        (paramEntry (unfinished front ++ question :: pair)).toList) ++
          more.filterMap paramEntry := by
    rw [fieldEntries, hfields, List.filterMap_append, List.append_assoc]
    cases h : paramEntry (unfinished front ++ question :: pair) with
    | none => rw [List.filterMap_cons_none h]; rfl
    | some e => rw [List.filterMap_cons_some h]; rfl
  have hright : fieldEntries text = (paramEntry pair).toList ++ more.filterMap paramEntry := by
    rw [fieldEntries, htext]
    cases h : paramEntry pair with
    | none => rw [List.filterMap_cons_none h]; rfl
    | some e => rw [List.filterMap_cons_some h]; rfl
  have hone : (paramEntry pair).toList.length ≤ 1 := by
    cases paramEntry pair with
    | none => exact Nat.zero_le 1
    | some e => exact Nat.le_refl 1
  unfold Harmless
  rw [hleft, hright, toParams_append_iff hone, htext, List.headD_cons]
  by_cases hhead : (unfinished front).head? = some equals
  · have hname : nameOf (unfinished front ++ question :: pair) = [] := by
      obtain ⟨cs, hcs⟩ := List.head?_eq_some_iff.mp hhead
      rw [hcs]
      rfl
    rw [paramEntry_of_no_name hname]
    simp [hhead]
  · obtain ⟨e, hentry, hne⟩ := paramEntry_front_ne hhead pair
    rw [hentry]
    refine ⟨fun h => absurd ?_ hne, fun h => absurd h.1 hhead⟩
    have hmem : e ∈ (paramEntry pair).toList := by
      rw [← h]
      exact List.mem_append_right _ (List.mem_singleton.mpr rfl)
    exact Option.mem_toList.mp hmem

/-- The question mark behind the path is taken when no later one is. -/
theorem behindQuestion_append {path : Str} (h : question ∉ path) (query : Str) :
    behindQuestion (path ++ question :: query) =
      (behindQuestion query).or
        (if query ≠ [] ∧ query.head? ≠ some question then some query else none) := by
  induction path with
  | nil => simp [behindQuestion]
  | cons c path ih =>
    obtain ⟨hc, hpath⟩ := not_or.mp (mt List.mem_cons.mpr h)
    have hskip : ¬(c = question ∧ path ++ question :: query ≠ [] ∧
        (path ++ question :: query).head? ≠ some question) := fun hand => hc hand.1.symm
    rw [List.cons_append, behindQuestion, ih hpath, if_neg hskip, Option.or_none]

/-- What stands in front of the question mark that has the rest behind it. -/
def before (query rest : Str) : Str := query.take (query.length - (rest.length + 1))

theorem before_append (front rest : Str) : before (front ++ question :: rest) rest = front := by
  rw [before, List.length_append, List.length_cons, Nat.add_sub_cancel, List.take_left']
  rfl

/-- The table of the URI is the table of its query. -/
def Extracts (path query : Str) : Prop :=
  urldecodeParams (path ++ question :: query) (fun _ => none) =
    urldecodeParams (encodeQuestions query) fun _ => none

/-- The question mark behind the path is the one that is taken, or the text in front of
the one that is taken does not matter. -/
def CutRight (path query : Str) : Prop :=
  match behindQuestion query with
  | some rest => Harmless (before query rest) rest
  | none => path ≠ [] ∧ query ≠ [] ∧ query.head? ≠ some question ∨ Harmless path query

instance (path query : Str) : Decidable (CutRight path query) := by
  unfold CutRight
  split <;> infer_instance

theorem urldecodeParams_fieldEntries (s : Str) :
    urldecodeParams s (fun _ => none) = toParams (fieldEntries (cutQuery s)) :=
  urldecodeParams_eq s

theorem cutQuery_path {path : Str} (h : question ∉ path) (query : Str) :
    cutQuery (path ++ question :: query) =
      match behindQuestion query with
      | some rest => rest
      | none =>
          if path ≠ [] ∧ query ≠ [] ∧ query.head? ≠ some question then query
          else path ++ question :: query := by
  cases path with
  | nil =>
    rw [List.nil_append, cutQuery]
    cases behindQuestion query with
    | some rest => rfl
    | none => rfl
  | cons c path =>
    have hpath : question ∉ path := fun hmem => h (List.mem_cons_of_mem _ hmem)
    rw [List.cons_append, cutQuery, behindQuestion_append hpath]
    cases behindQuestion query with
    | some rest => rfl
    | none =>
      by_cases hquery : query ≠ [] ∧ query.head? ≠ some question
      · rw [if_pos hquery]
        exact (if_pos ⟨List.cons_ne_nil _ _, hquery⟩).symm
      · rw [if_neg hquery]
        exact (if_neg fun hand => hquery hand.2).symm

/-- The parameters are those of the query when the question mark behind the path is the
one that is taken, or when a field without a name holds the difference. -/
theorem query_extracted_iff {path : Str} (h : question ∉ path) (query : Str) :
    Extracts path query ↔ CutRight path query := by
  unfold Extracts CutRight
  rw [urldecodeParams_encodeQuestions, urldecodeParams_fieldEntries, cutQuery_path h]
  match hquery : behindQuestion query with
  | some rest =>
    obtain ⟨front, rfl⟩ := behindQuestion_some hquery
    dsimp only
    rw [before_append, ← toParams_front_iff]
    exact eq_comm
  | none =>
    dsimp only
    by_cases htaken : path ≠ [] ∧ query ≠ [] ∧ query.head? ≠ some question
    · rw [if_pos htaken]
      exact ⟨fun _ => Or.inl htaken, fun _ => rfl⟩
    · rw [if_neg htaken, toParams_front_iff]
      exact ⟨Or.inr, fun hor => hor.resolve_left htaken⟩

/-- The URI "/p?a=1". -/
theorem query_extracted_plain :
    Extracts [0x2f, 0x70] [0x61, 0x3d, 0x31] ↔ CutRight [0x2f, 0x70] [0x61, 0x3d, 0x31] :=
  query_extracted_iff (by decide) _

/-- The URI "/p?a=1?b=2" has the parameter b, and none of the name a. -/
theorem query_cut_later :
    question ∉ ([0x2f, 0x70] : Str) ∧
      ¬Extracts [0x2f, 0x70] [0x61, 0x3d, 0x31, 0x3f, 0x62, 0x3d, 0x32] := by
  refine ⟨by decide, fun h => ?_⟩
  have hname := congrFun h [0x61]
  revert hname
  decide +kernel

end Iot7688.LuciHttp
