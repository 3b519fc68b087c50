import Iot7688.Env

/-!
The data area as a list of definitions. Each loop of the environment code is
described on an area that is a prefix, the part it runs over and a rest, so
that a pointer is the length of the prefix; together they make _do_setenv an
update of a finite map.
-/
namespace Iot7688.Env

open Lib

/-- A definition name=value. -/
structure Entry where
  name : List Byte
  value : List Byte
  name_no_nul : 0 ∉ name
  name_no_equals : equals ∉ name
  value_no_nul : 0 ∉ value

def Entry.bytes (e : Entry) : List Byte := e.name ++ equals :: e.value

theorem Entry.bytes_no_nul (e : Entry) : 0 ∉ e.bytes := by
  simp only [Entry.bytes, List.mem_append, List.mem_cons, not_or]
  exact ⟨e.name_no_nul, by decide, e.value_no_nul⟩

/-- The definitions, each with its NUL. -/
def flat (es : List Entry) : List Byte := es.flatMap fun e => e.bytes ++ [0]

@[simp] theorem flat_nil : flat [] = [] := rfl

@[simp] theorem flat_cons (e : Entry) (es : List Entry) :
    flat (e :: es) = e.bytes ++ 0 :: flat es := by
  simp [flat]

@[simp] theorem flat_append (l r : List Entry) : flat (l ++ r) = flat l ++ flat r := by
  simp [flat]

/-- The list with its closing NUL; no definition at all is a double NUL. -/
def encode (es : List Entry) : List Byte := if es = [] then [0, 0] else flat es ++ [0]

/-- A well-formed area: distinct names, and what is behind the double NUL is free. -/
structure Holds (data : Data) (es : List Entry) : Prop where
  layout : ∃ rest, data.toList = encode es ++ rest
  distinct : (es.map Entry.name).Nodup

/-- An area for a list that fits, padded with NULs. -/
def Data.ofEntries (es : List Entry) (h : (encode es).length ≤ envSize) : Data :=
  ⟨(encode es ++ List.replicate (envSize - (encode es).length) 0).toArray, by simp; omega⟩

theorem Data.holds_ofEntries (es : List Entry) (h : (encode es).length ≤ envSize)
    (hd : (es.map Entry.name).Nodup) : Holds (Data.ofEntries es h) es :=
  ⟨⟨_, rfl⟩, hd⟩

theorem get_at {data : Data} {c : Byte} (pre post : List Byte)
    (h : data.toList = pre ++ c :: post) : data[pre.length]? = some c := by
  rw [← Vector.getElem?_toList, h, List.getElem?_append_right (le_refl _), Nat.sub_self]
  rfl

theorem get_next {data : Data} {a c : Byte} (pre post : List Byte)
    (h : data.toList = pre ++ a :: c :: post) : data[pre.length + 1]? = some c := by
  have hnext := get_at (pre ++ [a]) post (by rw [h, List.append_assoc]; rfl)
  rwa [List.length_append, List.length_singleton] at hnext

theorem put_at {data : Data} {c : Byte} (pre post : List Byte) (b : Byte)
    (h : data.toList = pre ++ c :: post) :
    ∃ data', put data pre.length b = some data' ∧ data'.toList = pre ++ b :: post := by
  have hlt : pre.length < envSize := (Vector.getElem?_eq_some_iff.mp (get_at _ _ h)).1
  refine ⟨data.set pre.length b hlt, dif_pos hlt, ?_⟩
  rw [Vector.toList_set, h, List.set_append_right _ _ (le_refl _), Nat.sub_self]
  rfl

theorem strEnd_at {data : Data} (s : List Byte) (pre post : List Byte)
    (h : data.toList = pre ++ s ++ 0 :: post) (hs : 0 ∉ s) :
    strEnd data pre.length = some (pre.length + s.length) := by
  induction s generalizing pre with
  | nil =>
    rw [List.append_nil] at h
    obtain ⟨hlt, hget⟩ := Vector.getElem?_eq_some_iff.mp (get_at _ _ h)
    rw [strEnd, dif_pos hlt, if_pos hget]
    rfl
  | cons c s ih =>
    rw [List.append_assoc, List.cons_append] at h
    obtain ⟨hlt, hget⟩ := Vector.getElem?_eq_some_iff.mp (get_at _ _ h)
    rw [List.mem_cons, not_or] at hs
    have hrest := ih (pre ++ [c]) (by simpa using h) hs.2
    rw [List.length_append, List.length_singleton] at hrest
    rw [strEnd, dif_pos hlt, hget, if_neg (Ne.symm hs.1), hrest, List.length_cons]
    congr 1
    omega

/-- A name matches an entry exactly when it is the entry's name. -/
theorem envmatch_at {data : Data} (name : List Byte) (n pre post : List Byte)
    (h : data.toList = pre ++ n ++ equals :: post) (hn : 0 ∉ n) (hne : equals ∉ n)
    (hname : equals ∉ name) :
    envmatch data name pre.length =
      some (if n = name then some (pre.length + name.length + 1) else none) := by
  induction name generalizing n pre with
  | nil =>
    cases n with
    | nil =>
      rw [List.append_nil] at h
      simp only [envmatch, get_at _ _ h]
      rfl
    | cons c n =>
      rw [List.append_assoc, List.cons_append] at h
      rw [List.mem_cons, not_or] at hn hne
      simp only [envmatch, get_at _ _ h]
      rw [if_neg (Ne.symm hn.1), if_neg (Ne.symm hne.1), if_neg (by simp)]
  | cons s name ih =>
    rw [List.mem_cons, not_or] at hname
    cases n with
    | nil =>
      rw [List.append_nil] at h
      simp only [envmatch, get_at _ _ h]
      rw [if_pos (Ne.symm hname.1), if_neg (by simp)]
    | cons c n =>
      rw [List.append_assoc, List.cons_append] at h
      rw [List.mem_cons, not_or] at hn hne
      simp only [envmatch, get_at _ _ h]
      by_cases hsc : s = c
      · subst hsc
        have hrest := ih n (pre ++ [s]) (by simpa using h) hn.2 hne.2 hname.2
        rw [List.length_append, List.length_singleton] at hrest
        rw [if_neg (by simp), if_neg (Ne.symm hname.1), hrest]
        simp only [List.cons.injEq, true_and, List.length_cons]
        split
        · congr 2
          omega
        · rfl
      · rw [if_pos hsc, if_neg]
        intro heq
        exact hsc (List.cons.inj heq).1.symm

/-- One turn of the search. -/
theorem search_step {data : Data} {name : List Byte} {env nxt : ℕ} {c : Byte}
    (hget : data[env]? = some c) (hc : c ≠ 0) (hend : strEnd data env = some nxt) :
    search data name env =
      match envmatch data name env with
      | none => none
      | some (some oldval) => some (some ⟨oldval, env, nxt⟩)
      | some none => search data name (nxt + 1) := by
  obtain ⟨hlt, hget⟩ := Vector.getElem?_eq_some_iff.mp hget
  rw [search, dif_pos hlt, hget, if_neg hc]
  split
  · rename_i hn
    rw [hend] at hn
    simp at hn
  · rename_i n hn
    rw [hend] at hn
    obtain rfl : nxt = n := Option.some.inj hn
    rfl

theorem Entry.bytes_eq_cons (e : Entry) : ∃ c s, e.bytes = c :: s ∧ c ≠ 0 := by
  cases hb : e.bytes with
  | nil => simp [Entry.bytes] at hb
  | cons c s =>
    refine ⟨c, s, rfl, ?_⟩
    have hnul := e.bytes_no_nul
    rw [hb, List.mem_cons, not_or] at hnul
    exact Ne.symm hnul.1

/-- The search at an entry stops there or goes on behind it. -/
theorem search_entry {data : Data} (name : List Byte) (e : Entry) (pre post : List Byte)
    (h : data.toList = pre ++ e.bytes ++ 0 :: post) (hname : equals ∉ name) :
    search data name pre.length =
      if e.name = name then
        some (some ⟨pre.length + name.length + 1, pre.length, pre.length + e.bytes.length⟩)
      else search data name (pre ++ e.bytes ++ [0]).length := by
  obtain ⟨c, s, hbytes, hc⟩ := e.bytes_eq_cons
  have hget : data[pre.length]? = some c := by
    refine get_at pre (s ++ 0 :: post) ?_
    rw [h, hbytes]
    simp
  have hmatch := envmatch_at name e.name pre (e.value ++ 0 :: post)
    (by simpa [Entry.bytes] using h) e.name_no_nul e.name_no_equals hname
  rw [search_step hget hc (strEnd_at e.bytes pre post h e.bytes_no_nul), hmatch]
  by_cases hn : e.name = name
  · rw [if_pos hn, if_pos hn]
  · rw [if_neg hn, if_neg hn, List.length_append, List.length_append, List.length_singleton]

theorem search_absent {data : Data} (name : List Byte) (es : List Entry) (pre rest : List Byte)
    (h : data.toList = pre ++ flat es ++ 0 :: rest) (hname : equals ∉ name)
    (habs : ∀ e ∈ es, e.name ≠ name) : search data name pre.length = some none := by
  induction es generalizing pre with
  | nil =>
    rw [flat_nil, List.append_nil] at h
    obtain ⟨hlt, hget⟩ := Vector.getElem?_eq_some_iff.mp (get_at _ _ h)
    rw [search, dif_pos hlt, if_pos hget]
  | cons e es ih =>
    rw [search_entry name e pre (flat es ++ 0 :: rest) (by simpa using h) hname,
      if_neg (habs e List.mem_cons_self)]
    exact ih (pre ++ e.bytes ++ [0]) (by simpa using h)
      fun x hx => habs x (List.mem_cons_of_mem e hx)

theorem search_found {data : Data} (name : List Byte) (l : List Entry) (e : Entry)
    (r : List Entry) (pre rest : List Byte)
    (h : data.toList = pre ++ flat (l ++ e :: r) ++ 0 :: rest) (hname : equals ∉ name)
    (habs : ∀ x ∈ l, x.name ≠ name) (he : e.name = name) :
    search data name pre.length =
      some (some ⟨(pre ++ flat l).length + name.length + 1, (pre ++ flat l).length,
        (pre ++ flat l).length + e.bytes.length⟩) := by
  induction l generalizing pre with
  | nil =>
    rw [search_entry name e pre (flat r ++ 0 :: rest) (by simpa using h) hname, if_pos he,
      flat_nil, List.append_nil]
  | cons x l ih =>
    rw [search_entry name x pre (flat (l ++ e :: r) ++ 0 :: rest) (by simpa using h) hname,
      if_neg (habs x List.mem_cons_self)]
    have hrest := ih (pre ++ x.bytes ++ [0]) (by simpa using h)
      fun y hy => habs y (List.mem_cons_of_mem x hy)
    simpa using hrest

/-- No two NULs follow each other. -/
def NoDouble (s : List Byte) : Prop := s.IsChain fun a b => ¬(a = 0 ∧ b = 0)

theorem noDouble_of_no_nul {s : List Byte} (h : 0 ∉ s) : NoDouble s := by
  induction s with
  | nil => exact List.IsChain.nil
  | cons c s ih =>
    rw [List.mem_cons, not_or] at h
    refine List.IsChain.cons (ih h.2) ?_
    intro b _ hcb
    exact h.1 hcb.1.symm

theorem flat_noDouble (es : List Entry) : NoDouble (flat es) := by
  induction es with
  | nil => exact List.IsChain.nil
  | cons e es ih =>
    rw [flat_cons]
    refine List.IsChain.append (noDouble_of_no_nul e.bytes_no_nul) ?_ ?_
    · refine List.IsChain.cons ih ?_
      intro b hb hnul
      cases es with
      | nil => simp at hb
      | cons x es =>
        obtain ⟨c, s, hbytes, hc⟩ := x.bytes_eq_cons
        rw [flat_cons, hbytes] at hb
        simp only [List.cons_append, List.head?_cons, Option.mem_def, Option.some.injEq] at hb
        exact hc (hb.trans hnul.2)
    · intro a ha b _ hnul
      have hmem : a ∈ e.bytes := List.mem_of_getLast? ha
      exact e.bytes_no_nul (hnul.1 ▸ hmem)

theorem flat_eq_concat {es : List Entry} (hes : es ≠ []) : ∃ s, flat es = s ++ [0] := by
  induction es with
  | nil => exact absurd rfl hes
  | cons e es ih =>
    cases es with
    | nil => exact ⟨e.bytes, by simp⟩
    | cons x es =>
      obtain ⟨s, hs⟩ := ih (by simp)
      exact ⟨e.bytes ++ 0 :: s, by rw [flat_cons, hs]; simp⟩

/-- What follows a byte of such a string. -/
theorem next_of_noDouble {c : Byte} {s : List Byte} (post : List Byte)
    (h : NoDouble (c :: s ++ [0])) :
    ∃ d t, s ++ 0 :: 0 :: post = d :: t ∧ ¬(c = 0 ∧ d = 0) := by
  cases s with
  | nil =>
    refine ⟨0, 0 :: post, rfl, ?_⟩
    exact (List.isChain_cons_cons.mp h).1
  | cons d s => exact ⟨d, s ++ 0 :: 0 :: post, rfl, (List.isChain_cons_cons.mp h).1⟩

/-- The scan stops at the first double NUL. -/
theorem scanEnd_at {data : Data} (s pre post : List Byte)
    (h : data.toList = pre ++ (s ++ 0 :: 0 :: post)) (hs : NoDouble (s ++ [0])) :
    scanEnd data pre.length = some (pre.length + s.length) := by
  induction s generalizing pre with
  | nil =>
    obtain ⟨hlt, hget⟩ := Vector.getElem?_eq_some_iff.mp (get_at _ _ h)
    rw [scanEnd, dif_pos hlt, if_neg (by simpa using hget), get_next pre post h]
    rfl
  | cons c s ih =>
    obtain ⟨hlt, hget⟩ := Vector.getElem?_eq_some_iff.mp (get_at _ _ h)
    have hrest := ih (pre ++ [c]) (by simpa using h) hs.tail
    rw [List.length_append, List.length_singleton] at hrest
    obtain ⟨d, t, hdt, hcd⟩ := next_of_noDouble post hs
    rw [List.cons_append, hdt] at h
    rw [scanEnd, dif_pos hlt, hget, get_next pre t h, hrest, List.length_cons,
      Nat.add_right_comm, Nat.add_assoc]
    by_cases hc : c = 0
    · have hd : d ≠ 0 := fun hd => hcd ⟨hc, hd⟩
      simp only [hc, ne_eq, not_true_eq_false, if_false, hd, not_false_eq_true, if_true]
    · rw [if_pos hc]

/-- The move closes the gap and stops on the last NUL it has copied. -/
theorem shiftDown_at (s : List Byte) {data : Data} (pre : List Byte) (g : Byte)
    (gap post : List Byte) (h : data.toList = pre ++ g :: gap ++ (s ++ 0 :: 0 :: post))
    (hs : NoDouble (s ++ [0])) :
    ∃ data' d rest, shiftDown data pre.length (pre.length + gap.length + 1) =
        some (data', pre.length + s.length) ∧ data'.toList = pre ++ s ++ 0 :: d :: rest := by
  induction s generalizing data pre g gap with
  | nil =>
    obtain ⟨hlt, hget⟩ := Vector.getElem?_eq_some_iff.mp (get_at (pre ++ g :: gap) _ h)
    obtain ⟨data', hput, hdata'⟩ := put_at pre (gap ++ 0 :: 0 :: post) 0 (by simpa using h)
    have hnext := get_next (pre ++ 0 :: gap) post (by simpa using hdata')
    obtain ⟨d, rest, hdr⟩ : ∃ d rest, gap ++ 0 :: 0 :: post = d :: rest :=
      List.exists_cons_of_ne_nil (by simp)
    refine ⟨data', d, rest, ?_, by rw [hdata', hdr, List.append_nil]⟩
    simp only [List.length_append, List.length_cons, ← Nat.add_assoc] at hlt hget hnext
    rw [shiftDown, dif_pos hlt, hget, hput]
    simp only [hnext, and_self, if_true, List.length_nil, Nat.add_zero]
  | cons c s ih =>
    obtain ⟨e, t, het, hce⟩ := next_of_noDouble post hs
    obtain ⟨hlt, hget⟩ := Vector.getElem?_eq_some_iff.mp (get_at (pre ++ g :: gap) _ h)
    obtain ⟨data', hput, hdata'⟩ := put_at pre (gap ++ c :: (s ++ 0 :: 0 :: post)) c
      (by simpa using h)
    have hnext := get_next (pre ++ c :: gap) t (by rw [het] at hdata'; simpa using hdata')
    obtain ⟨g', gap', hgap⟩ : ∃ g' gap', gap ++ [c] = g' :: gap' :=
      List.exists_cons_of_ne_nil (by simp)
    have hlen : gap'.length = gap.length := by
      simpa using (congrArg List.length hgap).symm
    have hlay : data'.toList = pre ++ [c] ++ g' :: gap' ++ (s ++ 0 :: 0 :: post) := by
      rw [hdata', ← hgap]
      simp
    obtain ⟨data'', d, rest, hshift, hdata''⟩ := ih (pre ++ [c]) g' gap' hlay hs.tail
    refine ⟨data'', d, rest, ?_, by rw [hdata'']; simp⟩
    simp only [List.length_append, List.length_cons, List.length_nil, ← Nat.add_assoc, hlen,
      Nat.zero_add] at hlt hget hnext hshift
    rw [shiftDown, dif_pos hlt, hget, hput]
    simp only [hnext, hce, if_false, List.length_cons]
    have hnxt : pre.length + 1 + gap.length + 1 = pre.length + gap.length + 1 + 1 := by omega
    have hend : pre.length + 1 + s.length = pre.length + (s.length + 1) := by omega
    rw [← hnxt, hshift, hend]

/-- What encode leaves open: the area behind the closing NUL, which starts
with another one when there is no definition. -/
theorem encode_append (es : List Entry) (rest : List Byte) :
    ∃ rest', encode es ++ rest = flat es ++ 0 :: rest' ∧ (es = [] → ∃ t, rest' = 0 :: t) := by
  cases es with
  | nil => exact ⟨0 :: rest, rfl, fun _ => ⟨rest, rfl⟩⟩
  | cons e es => exact ⟨rest, by simp [encode], fun h => absurd h (by simp)⟩

theorem encode_append_of (es : List Entry) (rest' : List Byte)
    (h : es = [] → ∃ t, rest' = 0 :: t) : ∃ rest, flat es ++ 0 :: rest' = encode es ++ rest := by
  cases es with
  | nil =>
    obtain ⟨t, rfl⟩ := h rfl
    exact ⟨t, rfl⟩
  | cons e es => exact ⟨rest', by simp [encode]⟩

/-- Deletion, wherever the definition stands. -/
theorem deleteOld_at {data : Data} (l : List Entry) (e : Entry) (r : List Entry)
    (rest : List Byte) (h : data.toList = flat (l ++ e :: r) ++ 0 :: rest) :
    ∃ data', deleteOld data (flat l).length ((flat l).length + e.bytes.length) = some data' ∧
      ∃ rest', data'.toList = encode (l ++ r) ++ rest' := by
  obtain ⟨c, s, hbytes, hc⟩ := e.bytes_eq_cons
  have hlay : data.toList = flat l ++ c :: s ++ 0 :: (flat r ++ 0 :: rest) := by
    rw [h, ← hbytes]
    simp
  have hidx : (flat l).length + e.bytes.length = (flat l ++ c :: s).length := by
    rw [hbytes, List.length_append]
  rw [deleteOld, hidx]
  cases r with
  | nil =>
    rw [flat_nil, List.nil_append] at hlay
    have hnext := get_next (flat l ++ c :: s) rest hlay
    simp only [hnext, Option.bind_eq_bind, Option.bind_some, if_true, List.append_nil]
    cases l with
    | nil =>
      obtain ⟨d, t, hdt⟩ : ∃ d t, s ++ 0 :: 0 :: rest = d :: t :=
        List.exists_cons_of_ne_nil (by simp)
      obtain ⟨data1, hput1, hdata1⟩ := put_at [] (d :: t) 0
        (by rw [← hdt]; simpa using hlay)
      obtain ⟨data2, hput2, hdata2⟩ := put_at [0] t 0 hdata1
      refine ⟨data2, ?_, t, by rw [hdata2]; rfl⟩
      rw [List.length_nil] at hput1
      rw [flat_nil, List.length_nil, if_neg (lt_irrefl 0), hput1]
      exact hput2
    | cons x l =>
      obtain ⟨data1, hput1, hdata1⟩ := put_at (flat (x :: l)) (s ++ 0 :: 0 :: rest) 0
        (by simpa using hlay)
      obtain ⟨rest', hrest'⟩ := encode_append_of (x :: l) (s ++ 0 :: 0 :: rest)
        (fun h => absurd h (by simp))
      refine ⟨data1, ?_, rest', hdata1.trans hrest'⟩
      have hpos : 0 < (flat (x :: l)).length := by
        rw [flat_cons, List.length_append, List.length_cons]
        omega
      rw [if_pos hpos, hput1]
  | cons x r =>
    obtain ⟨b, u, hx, hb⟩ := x.bytes_eq_cons
    have hhead : flat (x :: r) = b :: (u ++ 0 :: flat r) := by rw [flat_cons, hx]; rfl
    have hnext := get_next (flat l ++ c :: s) (u ++ 0 :: flat r ++ 0 :: rest)
      (by rw [hlay, hhead]; rfl)
    obtain ⟨s', hs'⟩ := flat_eq_concat (List.cons_ne_nil x r)
    obtain ⟨data1, d, rest1, hshift, hdata1⟩ := shiftDown_at s' (flat l) c (s ++ [0]) rest
      (by rw [hlay, hs']; simp) (by rw [← hs']; exact flat_noDouble _)
    have hlast : data1.toList = flat l ++ s' ++ [0] ++ d :: rest1 := by
      rw [hdata1, List.append_assoc _ [0]]
      rfl
    obtain ⟨data2, hput2, hdata2⟩ := put_at (flat l ++ s' ++ [0]) rest1 0 hlast
    obtain ⟨rest', hrest'⟩ := encode_append_of (l ++ x :: r) rest1
      (fun h => absurd h (by simp))
    have hflat : flat l ++ s' ++ [0] = flat (l ++ x :: r) := by rw [flat_append, hs']; simp
    refine ⟨data2, ?_, rest', ?_⟩
    · simp only [List.length_append, List.length_cons, List.length_nil, ← Nat.add_assoc,
        Nat.zero_add] at hnext hshift hput2 ⊢
      simp only [hnext, Option.bind_eq_bind, Option.bind_some, hb, if_false, hshift, hput2]
    · rw [hdata2, hflat, hrest']

theorem appendPos_at {data : Data} (es : List Entry) (rest : List Byte)
    (h : data.toList = encode es ++ rest) : appendPos data = some (flat es).length := by
  cases es with
  | nil =>
    have hscan := scanEnd_at [] [] rest h (List.IsChain.singleton 0)
    rw [List.length_nil] at hscan
    rw [appendPos, hscan]
    rfl
  | cons e es =>
    obtain ⟨s, hs⟩ := flat_eq_concat (List.cons_ne_nil e es)
    have hpos : 0 < s.length := by
      have hlen := congrArg List.length hs
      obtain ⟨c, u, hbytes, _⟩ := e.bytes_eq_cons
      rw [flat_cons, hbytes] at hlen
      simp at hlen
      omega
    have hscan := scanEnd_at s [] rest (by rw [h, encode, if_neg (by simp), hs]; simp)
      (by rw [← hs]; exact flat_noDouble _)
    rw [List.length_nil, Nat.zero_add] at hscan
    rw [appendPos, hscan, hs, List.length_append, List.length_singleton]
    simp [hpos]

theorem copyStr_at {data : Data} (s pre mid post : List Byte)
    (h : data.toList = pre ++ mid ++ post) (hmid : mid.length = s.length + 1) :
    ∃ data', copyStr data pre.length s = some (data', pre.length + s.length) ∧
      data'.toList = pre ++ s ++ 0 :: post := by
  obtain ⟨c, mid, rfl⟩ : ∃ c m, mid = c :: m :=
    List.exists_cons_of_ne_nil (by rintro rfl; simp at hmid)
  induction s generalizing data pre c mid with
  | nil =>
    obtain rfl : mid = [] := by simpa using hmid
    obtain ⟨data', hput, hdata'⟩ := put_at pre post 0 (by simpa using h)
    refine ⟨data', ?_, by rw [hdata', List.append_nil]⟩
    rw [copyStr, hput]
    rfl
  | cons b s ih =>
    obtain ⟨data1, hput, hdata1⟩ := put_at pre (mid ++ post) b (by simpa using h)
    obtain ⟨c', mid, rfl⟩ : ∃ c m, mid = c :: m :=
      List.exists_cons_of_ne_nil (by rintro rfl; simp at hmid)
    obtain ⟨data', hcopy, hdata'⟩ := ih (pre ++ [b]) c' mid (by simpa using hdata1)
      (by simpa using hmid)
    refine ⟨data', ?_, by rw [hdata']; simp⟩
    rw [List.length_append, List.length_singleton] at hcopy
    rw [copyStr, hput, Option.bind_eq_bind, Option.bind_some, hcopy, List.length_cons]
    congr 2
    omega

/-- The arguments as they are stored. -/
def argBytes (sep : Byte) : List CStr → List Byte
  | [] => []
  | v :: vs => sep :: v.bytes ++ argBytes blank vs

theorem copyArgs_at {data : Data} (vs : List CStr) (sep : Byte) (pre mid post : List Byte)
    (h : data.toList = pre ++ 0 :: mid ++ post) (hmid : mid.length = (argBytes sep vs).length) :
    ∃ data', copyArgs data pre.length sep (vs.map some) =
        some (data', pre.length + (argBytes sep vs).length) ∧
      data'.toList = pre ++ argBytes sep vs ++ 0 :: post := by
  induction vs generalizing data sep pre mid with
  | nil =>
    obtain rfl : mid = [] := by simpa [argBytes] using hmid
    exact ⟨data, rfl, by simpa [argBytes] using h⟩
  | cons v vs ih =>
    have hlen : mid.length = v.bytes.length + 1 + (argBytes blank vs).length := by
      rw [hmid, argBytes]
      simp
      omega
    have hsplit := List.take_append_drop (v.bytes.length + 1) mid
    set m1 := mid.take (v.bytes.length + 1) with hm1
    set m2 := mid.drop (v.bytes.length + 1) with hm2
    have hlen1 : m1.length = v.bytes.length + 1 := by rw [hm1, List.length_take]; omega
    have hlen2 : m2.length = (argBytes blank vs).length := by rw [hm2, List.length_drop]; omega
    obtain ⟨data1, hput, hdata1⟩ := put_at pre (mid ++ post) sep (by simpa using h)
    obtain ⟨data2, hcopy, hdata2⟩ := copyStr_at v.bytes (pre ++ [sep]) m1 (m2 ++ post)
      (by rw [hdata1, ← hsplit]; simp) hlen1
    obtain ⟨data', hargs, hdata'⟩ := ih blank (pre ++ sep :: v.bytes) m2
      (by rw [hdata2]; simp) hlen2
    refine ⟨data', ?_, by rw [hdata', argBytes]; simp⟩
    simp only [List.length_append, List.length_cons, List.length_nil, Nat.zero_add] at hcopy hargs
    rw [List.map_cons, copyArgs, hput]
    simp only [Option.bind_eq_bind, Option.bind_some, hcopy, argBytes, List.length_append,
      List.length_cons]
    rw [show pre.length + 1 + v.bytes.length = pre.length + (v.bytes.length + 1) by omega, hargs]
    congr 2
    omega

theorem argsLen_map (sep : Byte) (vs : List CStr) :
    argsLen (vs.map some) = some (argBytes sep vs).length := by
  induction vs generalizing sep with
  | nil => rfl
  | cons v vs ih =>
    rw [List.map_cons, argsLen, ih blank]
    simp [argBytes]
    omega

/-- The new definition, written where the room suffices. -/
theorem appendNew_at {data : Data} (name : CStr) (vs : List CStr) (pre tail : List Byte)
    (h : data.toList = pre ++ tail)
    (hroom : name.bytes.length + (argBytes equals vs).length + 2 ≤ tail.length) :
    ∃ data' rest, appendNew data pre.length name (vs.map some) = some data' ∧
      data'.toList = pre ++ (name.bytes ++ argBytes equals vs) ++ 0 :: 0 :: rest := by
  set k := name.bytes.length with hk
  set a := (argBytes equals vs).length with ha
  obtain ⟨data1, hcopy, hdata1⟩ := copyStr_at name.bytes pre (tail.take (k + 1))
    (tail.drop (k + 1)) (by rw [h, List.append_assoc, List.take_append_drop])
    (by rw [List.length_take]; omega)
  set mid := tail.drop (k + 1) with hmid
  have hmidlen : mid.length = tail.length - (k + 1) := by rw [hmid, List.length_drop]
  obtain ⟨data2, hargs, hdata2⟩ := copyArgs_at vs equals (pre ++ name.bytes) (mid.take a)
    (mid.drop a) (by rw [hdata1]; simp) (by rw [List.length_take]; omega)
  obtain ⟨d, rest, hdr⟩ : ∃ d t, mid.drop a = d :: t := by
    refine List.exists_cons_of_ne_nil ?_
    intro hnil
    have := congrArg List.length hnil
    rw [List.length_drop, List.length_nil] at this
    omega
  rw [hdr] at hdata2
  have hlast : data2.toList = pre ++ name.bytes ++ argBytes equals vs ++ [0] ++ d :: rest := by
    rw [hdata2]
    simp
  obtain ⟨data3, hput, hdata3⟩ := put_at _ rest 0 hlast
  refine ⟨data3, rest, ?_, by rw [hdata3]; simp⟩
  simp only [List.length_append, List.length_singleton] at hargs hput
  simp only [appendNew, hcopy, Option.bind_eq_bind, Option.bind_some, hargs, hput]

/-- The values joined by single blanks. -/
def joinArgs (vs : List CStr) : List Byte := [blank].intercalate (vs.map CStr.bytes)

theorem argBytes_eq (sep : Byte) (v : CStr) (vs : List CStr) :
    argBytes sep (v :: vs) = sep :: joinArgs (v :: vs) := by
  induction vs generalizing sep v with
  | nil => simp [argBytes, joinArgs]
  | cons w vs ih =>
    rw [argBytes, ih blank w]
    simp [joinArgs, List.intercalate]

theorem joinArgs_no_nul (vs : List CStr) : 0 ∉ joinArgs vs := by
  cases vs with
  | nil => simp [joinArgs, List.intercalate]
  | cons v vs =>
    have hno : ∀ (sep : Byte) (l : List CStr), sep ≠ 0 → 0 ∉ argBytes sep l := by
      intro sep l
      induction l generalizing sep with
      | nil => simp [argBytes]
      | cons w l ih =>
        intro hsep
        simp only [argBytes, List.cons_append, List.mem_cons, List.mem_append, not_or]
        exact ⟨Ne.symm hsep, w.no_nul, ih blank (by decide)⟩
    have hargs := hno blank (v :: vs) (by decide)
    rw [argBytes_eq, List.mem_cons, not_or] at hargs
    exact hargs.2

def newEntry (name : CStr) (hname : equals ∉ name.bytes) (vs : List CStr) : Entry where
  name := name.bytes
  value := joinArgs vs
  name_no_nul := name.no_nul
  name_no_equals := hname
  value_no_nul := joinArgs_no_nul vs

/-- The map a list of definitions stands for. -/
def lookup (es : List Entry) (name : List Byte) : Option (List Byte) :=
  (es.find? fun e => e.name = name).map Entry.value

/-- The definitions of other names. -/
def others (es : List Entry) (name : List Byte) : List Entry := es.filter fun e => e.name ≠ name

theorem others_of_absent {es : List Entry} {name : List Byte} (h : ∀ e ∈ es, e.name ≠ name) :
    others es name = es := by
  refine List.filter_eq_self.mpr ?_
  intro e he
  simp [h e he]

/-- With distinct names a definition splits the list into the other ones. -/
theorem others_of_found {es : List Entry} (hd : (es.map Entry.name).Nodup) {name : List Byte}
    (h : ∃ e ∈ es, e.name = name) :
    ∃ l e r, es = l ++ e :: r ∧ e.name = name ∧ (∀ x ∈ l, x.name ≠ name) ∧
      others es name = l ++ r := by
  obtain ⟨e, he, hname⟩ := h
  obtain ⟨l, r, rfl⟩ := List.append_of_mem he
  rw [List.map_append, List.map_cons, List.nodup_append] at hd
  obtain ⟨_, hd2, hd3⟩ := hd
  have hl : ∀ x ∈ l, x.name ≠ name := fun x hx heq =>
    hd3 x.name (List.mem_map_of_mem hx) e.name List.mem_cons_self (heq.trans hname.symm)
  have hr : ∀ x ∈ r, x.name ≠ name := by
    intro x hx heq
    rw [List.nodup_cons] at hd2
    exact hd2.1 (by rw [hname, ← heq]; exact List.mem_map_of_mem hx)
  refine ⟨l, e, r, rfl, hname, hl, ?_⟩
  rw [others, List.filter_append, List.filter_cons_of_neg (by simp [hname])]
  exact congrArg₂ (· ++ ·) (others_of_absent hl) (others_of_absent hr)

theorem lookup_others (es : List Entry) (name : List Byte) :
    lookup (others es name) = Function.update (lookup es) name none := by
  funext x
  unfold lookup others
  by_cases hx : x = name
  · subst hx
    rw [Function.update_self, List.find?_eq_none.mpr]
    · rfl
    · intro e he
      rw [List.mem_filter] at he
      simpa using he.2
  · rw [Function.update_of_ne hx, List.find?_filter]
    congr 2
    funext e
    by_cases he : e.name = x
    · simp [he, hx]
    · simp [he]

theorem lookup_append_new (es : List Entry) (e : Entry) (h : lookup es e.name = none) :
    lookup (es ++ [e]) = Function.update (lookup es) e.name (some e.value) := by
  funext x
  unfold lookup at *
  rw [List.find?_append]
  by_cases hx : x = e.name
  · subst hx
    rw [Option.map_eq_none_iff] at h
    rw [Function.update_self, h]
    simp
  · rw [Function.update_of_ne hx]
    have hne : ¬ e.name = x := fun h => hx h.symm
    cases hf : es.find? fun e => e.name = x <;> simp [hne]

theorem getenvLoop_eq (data : Data) (name : List Byte) (i : ℕ) :
    getenvLoop data name i = (search data name i).map fun f => f.map Found.oldval := by
  fun_induction search data name i with
  | case1 i hi hc => rw [getenvLoop, dif_pos hi, if_pos hc]; rfl
  | case2 i hi hc hend =>
    rw [getenvLoop, dif_pos hi, if_neg hc]
    split <;> rename_i hn <;> rw [strEndCapped_eq, hend] at hn <;> simp at hn ⊢
  | case3 i hi hc nxt hend hmatch =>
    rw [getenvLoop, dif_pos hi, if_neg hc]
    split <;> rename_i hn <;> rw [strEndCapped_eq, hend] at hn <;> simp_all
  | case4 i hi hc nxt hend val hmatch =>
    rw [getenvLoop, dif_pos hi, if_neg hc]
    split <;> rename_i hn <;> rw [strEndCapped_eq, hend] at hn <;> simp_all
  | case5 i hi hc nxt hend hmatch ih =>
    rw [getenvLoop, dif_pos hi, if_neg hc]
    split <;> rename_i hn <;> rw [strEndCapped_eq, hend] at hn <;> simp_all
  | case6 i hi => rw [getenvLoop, dif_neg hi]; rfl

theorem stringAt_at {data : Data} (s pre post : List Byte)
    (h : data.toList = pre ++ s ++ 0 :: post) (hs : 0 ∉ s) :
    stringAt data pre.length = some s := by
  rw [stringAt, strEnd_at s pre post h hs, h, Option.bind_eq_bind, Option.bind_some,
    Nat.add_sub_cancel_left, List.append_assoc, List.drop_left, List.take_left]
  rfl

/-- getenv reads the map. -/
theorem getenvString_at {data : Data} (es : List Entry) (rest : List Byte) (name : CStr)
    (hname : equals ∉ name.bytes) (hd : (es.map Entry.name).Nodup)
    (h : data.toList = encode es ++ rest) :
    getenvString data name = some (lookup es name.bytes) := by
  obtain ⟨rest', hrest', _⟩ := encode_append es rest
  rw [hrest'] at h
  unfold getenvString getenv
  rw [getenvLoop_eq]
  by_cases hfound : ∃ e ∈ es, e.name = name.bytes
  · obtain ⟨l, e, r, rfl, hn, hl, _⟩ := others_of_found hd hfound
    have hsearch := search_found name.bytes l e r [] rest' (by simpa using h) hname hl hn
    have hval : lookup (l ++ e :: r) name.bytes = some e.value := by
      have hnone : (l.find? fun x => x.name = name.bytes) = none := by
        simpa [List.find?_eq_none] using hl
      rw [lookup, List.find?_append, hnone]
      simp [hn]
    have hstring := stringAt_at e.value (flat l ++ (name.bytes ++ [equals]))
      (flat r ++ 0 :: rest') (by rw [h, ← hn]; simp [Entry.bytes]) e.value_no_nul
    have hidx : (flat l ++ (name.bytes ++ [equals])).length =
        (flat l).length + name.bytes.length + 1 := by
      simp
      omega
    rw [List.length_nil, List.nil_append] at hsearch
    rw [hidx] at hstring
    rw [hsearch, hval]
    simp [hstring]
  · have habs : ∀ e ∈ es, e.name ≠ name.bytes := fun e he hn => hfound ⟨e, he, hn⟩
    have hsearch := search_absent name.bytes es [] rest' (by simpa using h) hname habs
    have hval : lookup es name.bytes = none := by
      have hnone : (es.find? fun x => x.name = name.bytes) = none := by
        simpa [List.find?_eq_none] using habs
      rw [lookup, hnone]
      rfl
    rw [List.length_nil] at hsearch
    rw [hsearch, hval]
    rfl

/-- The names with a meaning of their own in _do_setenv. -/
def handledNames : List (List Byte) :=
  ["stdin", "stdout", "stderr", "baudrate", "serial#", "ethaddr"].map ascii

theorem overwriteChecks_plain (consoleAssign : ℕ → CStr → ℤ) (s : State) (name : CStr)
    (argv : List (Option CStr)) (h : name.bytes ∉ handledNames) :
    overwriteChecks consoleAssign s name argv = some (true, s) := by
  simp only [handledNames, List.map_cons, List.map_nil, List.mem_cons, List.not_mem_nil,
    or_false, not_or] at h
  obtain ⟨h1, h2, h3, h4, h5, h6⟩ := h
  have hcons : consoleOf name.bytes = none := by
    rw [consoleOf, if_neg h1, if_neg h2, if_neg h3]
  rw [overwriteChecks, if_neg (by simp [h5, h6]), hcons]
  simp only [h4, if_false]

theorem postUpdate_env (s : State) (name val : CStr) : (postUpdate s name val).env = s.env := by
  unfold postUpdate
  split_ifs <;> rfl

/-- A plain name is deleted first, whether it was defined or not. -/
theorem doSetenv_deletes (consoleAssign : ℕ → CStr → ℤ) (s : State) (es : List Entry)
    (cmd : Option CStr) (name : CStr) (args : List (Option CStr)) (h : Holds s.env.data es)
    (hname : equals ∉ name.bytes) (hplain : name.bytes ∉ handledNames) :
    ∃ s', doSetenv consoleAssign s (cmd :: some name :: args) =
        defineNew s' name (cmd :: some name :: args) ∧
      ∃ rest, s'.env.data.toList = encode (others es name.bytes) ++ rest := by
  obtain ⟨⟨rest, hlay⟩, hd⟩ := h
  obtain ⟨rest', hrest', _⟩ := encode_append es rest
  have hflat := hlay.trans hrest'
  have hargv : (cmd :: some name :: args)[1]?.join = some name := rfl
  rw [doSetenv, hargv, Option.bind_eq_bind, Option.bind_some]
  by_cases hfound : ∃ e ∈ es, e.name = name.bytes
  · obtain ⟨l, e, r, rfl, hn, hl, hothers⟩ := others_of_found hd hfound
    have hsearch := search_found name.bytes l e r [] rest' (by simpa using hflat) hname hl hn
    rw [List.length_nil, List.nil_append] at hsearch
    obtain ⟨data', hdel, hdata'⟩ := deleteOld_at l e r rest' hflat
    refine ⟨s.setData data', ?_, by rw [hothers]; exact hdata'⟩
    simp [hsearch, overwriteChecks_plain consoleAssign s name _ hplain, hdel]
  · have habs : ∀ e ∈ es, e.name ≠ name.bytes := fun e he hn => hfound ⟨e, he, hn⟩
    have hsearch := search_absent name.bytes es [] rest' (by simpa using hflat) hname habs
    rw [List.length_nil] at hsearch
    refine ⟨s, ?_, rest, by rw [others_of_absent habs]; exact hlay⟩
    simp [hsearch]

theorem newEntry_bytes (name : CStr) (hname : equals ∉ name.bytes) (v : CStr) (vs : List CStr) :
    (newEntry name hname (v :: vs)).bytes = name.bytes ++ argBytes equals (v :: vs) := by
  rw [argBytes_eq]
  rfl

theorem encode_concat (es : List Entry) (e : Entry) :
    encode (es ++ [e]) = flat es ++ e.bytes ++ [0, 0] := by
  rw [encode, if_neg (by simp)]
  simp

/-- The length test is exact. -/
theorem defineNew_at (s : State) (es : List Entry) (rest : List Byte) (cmd : Option CStr)
    (name : CStr) (hname : equals ∉ name.bytes) (v : CStr) (vs : List CStr)
    (h : s.env.data.toList = encode es ++ rest) :
    if (encode (es ++ [newEntry name hname (v :: vs)])).length ≤ envSize then
      ∃ s', defineNew s name (cmd :: some name :: (v :: vs).map some) = some (0, s') ∧
        ∃ rest', s'.env.data.toList = encode (es ++ [newEntry name hname (v :: vs)]) ++ rest'
    else defineNew s name (cmd :: some name :: (v :: vs).map some) = some (1, s) := by
  have hpos := appendPos_at es rest h
  have hlen : newLen name ((v :: vs).map some) =
      some (name.bytes.length + 2 + (argBytes equals (v :: vs)).length) := by
    rw [newLen, argsLen_map equals]
    rfl
  have hargs : (cmd :: some name :: (v :: vs).map some)[2]?.join = some v := rfl
  have hdrop : (cmd :: some name :: (v :: vs).map some).drop 2 = (v :: vs).map some := rfl
  have hsize : (encode (es ++ [newEntry name hname (v :: vs)])).length =
      (flat es).length + (name.bytes.length + 2 + (argBytes equals (v :: vs)).length) := by
    rw [encode_concat, newEntry_bytes]
    simp
    omega
  unfold defineNew
  simp only [hargs, hdrop, hpos, hlen, Option.bind_eq_bind, Option.bind_some, hsize]
  by_cases hfit : (flat es).length +
      (name.bytes.length + 2 + (argBytes equals (v :: vs)).length) ≤ envSize
  · obtain ⟨rest', hrest', _⟩ := encode_append es rest
    have htotal : (flat es).length + (rest'.length + 1) = envSize := by
      have := congrArg List.length (h.trans hrest')
      simpa using this.symm
    obtain ⟨data', rest2, happ, hdata'⟩ := appendNew_at name (v :: vs) (flat es) (0 :: rest')
      (h.trans hrest') (by rw [List.length_cons]; omega)
    rw [if_pos hfit, if_neg (by omega)]
    refine ⟨_, by rw [happ]; rfl, rest2, ?_⟩
    rw [postUpdate_env, encode_concat, newEntry_bytes]
    simpa [State.setData, State.crcUpdate, envCrcUpdate] using hdata'
  · rw [if_neg hfit, if_pos (by omega)]
    rfl

theorem defineNew_delete (s : State) (name : CStr) (argv : List (Option CStr))
    (h : argv[2]?.join = none) : defineNew s name argv = some (0, s.crcUpdate) := by
  unfold defineNew
  rw [h]

theorem argsLen_some {args : List (Option CStr)} {n : ℕ} (h : argsLen args = some n) :
    ∃ vs : List CStr, args = vs.map some := by
  induction args generalizing n with
  | nil => exact ⟨[], rfl⟩
  | cons a args ih =>
    cases a with
    | none => simp [argsLen] at h
    | some v =>
      cases hrest : argsLen args with
      | none => simp [argsLen, hrest] at h
      | some k =>
        obtain ⟨vs, rfl⟩ := ih hrest
        exact ⟨v :: vs, rfl⟩

/-- A definition is only made from arguments that are all there. -/
theorem defineNew_args {s s' : State} {name : CStr} {argv : List (Option CStr)} {v : CStr}
    {ret : ℤ} (h : defineNew s name argv = some (ret, s')) (hv : argv[2]?.join = some v) :
    ∃ vs : List CStr, argv.drop 2 = vs.map some := by
  unfold defineNew at h
  simp only [hv, Option.bind_eq_bind, Option.bind_eq_some_iff] at h
  obtain ⟨_, _, len, hlen, _⟩ := h
  rw [newLen, Option.bind_eq_bind, Option.bind_eq_some_iff] at hlen
  obtain ⟨n, hn, _⟩ := hlen
  exact argsLen_some hn

theorem distinct_others {es : List Entry} (hd : (es.map Entry.name).Nodup) (name : List Byte) :
    ((others es name).map Entry.name).Nodup :=
  hd.sublist (List.filter_sublist.map Entry.name)

theorem distinct_new {es : List Entry} (hd : (es.map Entry.name).Nodup) (e : Entry) :
    ((others es e.name ++ [e]).map Entry.name).Nodup := by
  rw [List.map_append, List.nodup_append]
  refine ⟨distinct_others hd e.name, List.nodup_singleton _, ?_⟩
  intro n hn m hm heq
  obtain ⟨x, hx, rfl⟩ := List.mem_map.mp hn
  obtain rfl : m = e.name := by simpa using hm
  have hne := (List.mem_filter.mp hx).2
  simp [heq] at hne

/-- The map after a successful call, as the list the area then holds. -/
theorem doSetenv_holds (consoleAssign : ℕ → CStr → ℤ) {s s' : State} {es : List Entry}
    {cmd : Option CStr} {name : CStr} {args : List (Option CStr)} (h : Holds s.env.data es)
    (hname : equals ∉ name.bytes) (hplain : name.bytes ∉ handledNames)
    (hret : doSetenv consoleAssign s (cmd :: some name :: args) = some (0, s')) :
    ∃ es', Holds s'.env.data es' ∧ lookup es' = Function.update (lookup es) name.bytes
      (args.head?.join.map fun _ => joinArgs (args.filterMap id)) := by
  obtain ⟨s1, hdel, rest, hlay⟩ := doSetenv_deletes consoleAssign s es cmd name args h hname hplain
  rw [hdel] at hret
  have hargv : (cmd :: some name :: args)[2]?.join = args.head?.join := by
    rw [List.head?_eq_getElem?]
    rfl
  cases hhead : args.head?.join with
  | none =>
    rw [defineNew_delete s1 name _ (hargv.trans hhead)] at hret
    obtain rfl : s1.crcUpdate = s' := (Prod.mk.inj (Option.some.inj hret)).2
    refine ⟨others es name.bytes, ⟨⟨rest, hlay⟩, distinct_others h.distinct _⟩, ?_⟩
    rw [lookup_others]
    rfl
  | some v =>
    obtain ⟨vs, hvs⟩ := defineNew_args hret (hargv.trans hhead)
    rw [List.drop_succ_cons, List.drop_succ_cons, List.drop_zero] at hvs
    subst hvs
    cases vs with
    | nil => simp at hhead
    | cons w vs =>
      have hdef := defineNew_at s1 (others es name.bytes) rest cmd name hname w vs hlay
      split at hdef
      · obtain ⟨s2, hdef, rest', hlay'⟩ := hdef
        rw [hdef] at hret
        obtain rfl : s2 = s' := (Prod.mk.inj (Option.some.inj hret)).2
        refine ⟨_, ⟨⟨rest', hlay'⟩, distinct_new h.distinct (newEntry name hname (w :: vs))⟩, ?_⟩
        have hgone : lookup (others es name.bytes) name.bytes = none := by
          rw [lookup_others, Function.update_self]
        rw [lookup_append_new _ _ hgone, lookup_others]
        simp [newEntry]
      · rw [hdef] at hret
        simp at hret

/-- The definition of one plain value has a result, and the area stays well formed
whether the definition fits or not. -/
theorem doSetenv_defined (consoleAssign : ℕ → CStr → ℤ) {s : State} {es : List Entry}
    (cmd : Option CStr) {name : CStr} (v : CStr) (h : Holds s.env.data es)
    (hname : equals ∉ name.bytes) (hplain : name.bytes ∉ handledNames) :
    ∃ ret s' es', doSetenv consoleAssign s [cmd, some name, some v] = some (ret, s') ∧
      Holds s'.env.data es' := by
  obtain ⟨s1, hdel, rest, hlay⟩ :=
    doSetenv_deletes consoleAssign s es cmd name [some v] h hname hplain
  have hdef := defineNew_at s1 (others es name.bytes) rest cmd name hname v [] hlay
  split at hdef
  · obtain ⟨s2, hdef, _⟩ := hdef
    have hret := hdel.trans hdef
    obtain ⟨es', hes', _⟩ := doSetenv_holds consoleAssign h hname hplain hret
    exact ⟨0, s2, es', hret, hes'⟩
  · exact ⟨1, s1, _, hdel.trans hdef, ⟨rest, hlay⟩, distinct_others h.distinct _⟩

/-- _do_setenv updates a finite map: a call that returns 0 leaves a well-formed
area in which the name has the joined arguments, or nothing after the delete
form, and every other name what it had. A definition is accepted exactly when
the new list with its double NUL fits. -/
theorem doSetenv_updates (consoleAssign : ℕ → CStr → ℤ) (s : State) (es : List Entry)
    (cmd : Option CStr) (name : CStr) (args : List (Option CStr)) (h : Holds s.env.data es)
    (hname : equals ∉ name.bytes) (hplain : name.bytes ∉ handledNames) :
    (∀ s', doSetenv consoleAssign s (cmd :: some name :: args) = some (0, s') →
      (∃ es', Holds s'.env.data es') ∧
        getenvString s'.env.data name =
          some (args.head?.join.map fun _ => joinArgs (args.filterMap id)) ∧
        ∀ other : CStr, equals ∉ other.bytes → other.bytes ≠ name.bytes →
          getenvString s'.env.data other = getenvString s.env.data other) ∧
    (∀ v vs, args = (v :: vs).map some →
      ((∃ s', doSetenv consoleAssign s (cmd :: some name :: args) = some (0, s')) ↔
        (encode (others es name.bytes ++ [newEntry name hname (v :: vs)])).length ≤ envSize)) := by
  constructor
  · intro s' hret
    obtain ⟨es', hes', hmap⟩ := doSetenv_holds consoleAssign h hname hplain hret
    obtain ⟨rest, hlay⟩ := h.layout
    obtain ⟨rest', hlay'⟩ := hes'.layout
    refine ⟨⟨es', hes'⟩, ?_, ?_⟩
    · rw [getenvString_at es' rest' name hname hes'.distinct hlay', hmap, Function.update_self]
    · intro other hother hne
      rw [getenvString_at es' rest' other hother hes'.distinct hlay',
        getenvString_at es rest other hother h.distinct hlay, hmap, Function.update_of_ne hne]
  · rintro v vs rfl
    obtain ⟨s1, hdel, rest, hlay⟩ :=
      doSetenv_deletes consoleAssign s es cmd name ((v :: vs).map some) h hname hplain
    have hdef := defineNew_at s1 (others es name.bytes) rest cmd name hname v vs hlay
    rw [hdel]
    split at hdef
    · rename_i hfit
      obtain ⟨s2, hdef, _⟩ := hdef
      exact ⟨fun _ => hfit, fun _ => ⟨s2, hdef⟩⟩
    · rename_i hfit
      refine ⟨?_, fun h => absurd h hfit⟩
      rintro ⟨s2, hs2⟩
      rw [hdef] at hs2
      simp at hs2

theorem doSetenv_updates_bootdelay :
    let bootdelay : Entry := ⟨ascii "bootdelay", ascii "5", by decide, by decide, by decide⟩
    let s : State := ⟨⟨0, Data.ofEntries [bootdelay] (by decide)⟩, 57600, [], [], 0, []⟩
    let name : CStr := ⟨ascii "bootdelay", by decide⟩
    let call := doSetenv (fun _ _ => 0) s [none, some name, some ⟨ascii "3", by decide⟩]
    (∃ s', call = some (0, s')) ∧ ∀ s', call = some (0, s') →
      getenvString s'.env.data name = some (some (ascii "3")) := by
  intro bootdelay s name call
  have hs := doSetenv_updates (fun _ _ => 0) s [bootdelay] none name
    [some ⟨ascii "3", by decide⟩] (Data.holds_ofEntries [bootdelay] (by decide) (by decide))
    (by decide) (by decide)
  refine ⟨(hs.2 ⟨ascii "3", by decide⟩ [] rfl).mpr (by decide), fun s' hret => ?_⟩
  exact (hs.1 s' hret).2.1

end Iot7688.Env
