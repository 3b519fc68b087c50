import Iot7688.NvramCommit

/-!
The table of tuples when allocation can fail: nvram_set, nvram_unset, nvram_get and
nvram_getall with the outcome of every malloc and realloc as an argument. A value that
is replaced is overwritten by what realloc returns, so the failure of that call leaves
the tuple in the table without a value; all other failures change nothing.
-/
namespace Iot7688.Nvram.Alloc

open Lib

/-- A tuple; no value for NULL. -/
abbrev Tuple := CString × Option CString

structure Handle where
  length : ℕ
  offset : ℕ
  nvramHash : Buckets.Table CString (Option CString)
  nvramDead : List Tuple

/-- Whether malloc and realloc succeed in a call of nvram_set. -/
structure Outcome where
  malloc : Bool
  realloc : Bool

def findTuple (h : Handle) (name : CString) : Option Tuple :=
  (h.nvramHash (bucket name)).find? fun t => decide (t.1 = name)

/-- nvram_get; no name and no result for NULL. -/
def nvramGet (h : Handle) (name : Option CString) : Option CString :=
  match name with
  | none => none
  | some name => (findTuple h name).bind Prod.snd

/-- _nvram_realloc: what is stored as the value of t, if anything is, and the tuple
that is returned. -/
def nvramRealloc (h : Handle) (o : Outcome) (t : Option Tuple) (name value : CString) :
    Option (Option CString) × Option Tuple :=
  if value.strlen + 1 > h.length - h.offset then (none, none)
  else
    match t with
    | none =>
        -- a new tuple is not freed when its value cannot be allocated
        if o.malloc && o.realloc then (none, some (name, some value)) else (none, none)
    | some t =>
        if t.2 = some value then (none, some t)
        else if o.realloc then (some (some value), some (t.1, some value))
        else (some none, none)

/-- Write the value of the tuple with the given name. -/
def writeValue (h : Handle) (name : CString) (value : Option CString) : Handle :=
  { h with nvramHash := Function.update h.nvramHash (bucket name)
            (Buckets.replace name value (h.nvramHash (bucket name))) }

/-- nvram_set. A tuple that was found is the one that _nvram_realloc returns, so it
never moves to the dead table. -/
def nvramSet (h : Handle) (o : Outcome) (name value : CString) : ℤ × Handle :=
  match nvramRealloc h o (findTuple h name) name value with
  | (stored, none) => (-12, stored.elim h (writeValue h name))
  | (stored, some u) =>
      if (findTuple h name).isSome then (0, stored.elim h (writeValue h name))
      else
        (0, { h with nvramHash := Function.update h.nvramHash (bucket name)
                      (u :: h.nvramHash (bucket name)) })

def nvramUnset (h : Handle) (name : Option CString) : ℤ × Handle :=
  match name with
  | none => (0, h)
  | some name =>
      match findTuple h name with
      | none => (0, h)
      | some t =>
          (0, { h with
                nvramHash := Buckets.erase bucket h.nvramHash name
                nvramDead := t :: h.nvramDead })

/-- The inner loop of nvram_getall, on the list so far and the number of mallocs. -/
def listBucket (malloc : ℕ → Bool) : List Tuple → List Tuple × ℕ → List Tuple × ℕ
  | [], s => s
  | t :: ts, s => if malloc s.2 then listBucket malloc ts (t :: s.1, s.2 + 1) else (s.1, s.2 + 1)

def nvramGetall (malloc : ℕ → Bool) (h : Handle) : List Tuple :=
  ((List.range hashSize).foldl (fun s i => listBucket malloc (h.nvramHash i) s) ([], 0)).1

/-- A call of the library, with the outcome of its allocations. -/
inductive Call where
  | set (name value : CString) (o : Outcome)
  | unset (name : Option CString)
  | get (name : Option CString)

def step (h : Handle) : Call → ℤ × Handle
  | .set name value o => nvramSet h o name value
  | .unset name => nvramUnset h name
  | .get _ => (0, h)

/-- Calls that all satisfy P, the latest first, with what they returned. -/
inductive Run (P : Handle → Call → Prop) (start : Handle) : List (Call × ℤ) → Handle → Prop
  | nil : Run P start [] start
  | call {events : List (Call × ℤ)} {h : Handle} (c : Call) :
      Run P start events h → P h c → Run P start ((c, (step h c).1) :: events) (step h c).2

/-- The value of the last successful set that no unset followed. -/
def lastSet : List (Call × ℤ) → CString → Option CString
  | [], _ => none
  | (.set name value _, ret) :: events, name' =>
      if ret = 0 ∧ name' = name then some value else lastSet events name'
  | (.unset name, _) :: events, name' =>
      if some name' = name then none else lastSet events name'
  | (.get _, _) :: events, name' => lastSet events name'

/-- A set whose value reaches realloc on a tuple with another value needs it to succeed. -/
def KeepsValue (h : Handle) : Call → Prop
  | .set name value o =>
      value.strlen + 1 ≤ h.length - h.offset → o.realloc = false →
        nvramGet h (some name) = none ∨ nvramGet h (some name) = some value
  | _ => True

/-- The table as a finite map, after the given calls. -/
structure IsMap (events : List (Call × ℤ)) (h : Handle) : Prop where
  once : ((Buckets.entries hashSize h.nvramHash).map Prod.fst).Nodup
  get : ∀ name, nvramGet h (some name) = lastSet events name
  getall : ∀ malloc, (∀ k, malloc k = true) → ((nvramGetall malloc h).map Prod.fst).Nodup ∧
    ∀ name value, (name, value) ∈ nvramGetall malloc h ↔
      value.isSome ∧ nvramGet h (some name) = value

def lookup (h : Handle) (name : CString) : Option (Option CString) :=
  Buckets.lookup bucket h.nvramHash name

def putTuple (h : Handle) (name : CString) (value : Option CString) : Handle :=
  { h with nvramHash := Buckets.insert bucket h.nvramHash name value }

theorem findTuple_eq (h : Handle) (name : CString) :
    findTuple h name = (lookup h name).map fun value => (name, value) := by
  unfold findTuple lookup Buckets.lookup Buckets.find
  cases hfind : (h.nvramHash (bucket name)).find? fun t => decide (t.1 = name) with
  | none => rfl
  | some t =>
    have hname : t.1 = name := by simpa using List.find?_some hfind
    rw [Option.map_some, Option.map_some, ← hname]

theorem nvramGet_eq (h : Handle) (name : CString) :
    nvramGet h (some name) = (lookup h name).join := by
  change (findTuple h name).bind Prod.snd = _
  rw [findTuple_eq]
  cases lookup h name with
  | none => rfl
  | some value => rfl

theorem lookup_putTuple (h : Handle) (name name' : CString) (value : Option CString) :
    lookup (putTuple h name value) name' = if name' = name then some value else lookup h name' :=
  Buckets.lookup_insert h.nvramHash name name' value

theorem putTuple_self {h : Handle} {name : CString} {value : Option CString}
    (hfound : lookup h name = some value) : putTuple h name value = h := by
  unfold putTuple
  rw [Buckets.insert_self hfound]

theorem writeValue_eq {h : Handle} {name : CString} {value : Option CString}
    (hfound : lookup h name = some value) (value' : Option CString) :
    writeValue h name value' = putTuple h name value' := by
  have hsome : (Buckets.find name (h.nvramHash (bucket name))).isSome :=
    Option.isSome_iff_exists.mpr ⟨value, hfound⟩
  unfold writeValue putTuple Buckets.insert Buckets.put
  rw [if_pos hsome]

theorem addTuple_eq {h : Handle} {name : CString} (hnone : lookup h name = none)
    (value : Option CString) :
    { h with nvramHash := Function.update h.nvramHash (bucket name)
              ((name, value) :: h.nvramHash (bucket name)) } = putTuple h name value := by
  have hnot : ¬(Buckets.find name (h.nvramHash (bucket name))).isSome := by
    rw [show Buckets.find name (h.nvramHash (bucket name)) = none from hnone]
    exact Bool.false_ne_true
  unfold putTuple Buckets.insert Buckets.put
  rw [if_neg hnot]

/-- What nvram_set can do: store the value, change nothing, or lose the old value. -/
theorem nvramSet_cases (h : Handle) (o : Outcome) (name value : CString) :
    nvramSet h o name value = (0, putTuple h name (some value)) ∨
    nvramSet h o name value = (-12, h) ∧ KeepsValue h (.set name value o) ∨
    nvramSet h o name value = (-12, putTuple h name none) ∧ (lookup h name).isSome ∧
      (KeepsValue h (.set name value o) ↔ nvramGet h (some name) = none) := by
  unfold nvramSet nvramRealloc
  rw [findTuple_eq]
  by_cases hlong : value.strlen + 1 > h.length - h.offset
  · refine Or.inr (Or.inl ⟨?_, fun hfit => absurd hfit (by omega)⟩)
    rw [if_pos hlong]
    rfl
  · rw [if_neg hlong]
    cases hold : lookup h name with
    | none =>
      have hget : nvramGet h (some name) = none := by rw [nvramGet_eq, hold]; rfl
      cases hboth : o.malloc && o.realloc with
      | false => exact Or.inr (Or.inl ⟨rfl, fun _ _ => Or.inl hget⟩)
      | true => exact Or.inl (congrArg (Prod.mk 0) (addTuple_eq hold (some value)))
    | some old =>
      have hget : nvramGet h (some name) = old := by rw [nvramGet_eq, hold]; rfl
      by_cases hsame : old = some value
      · refine Or.inl ?_
        rw [← hsame, putTuple_self hold, Option.map_some]
        simp [hsame]
      · cases hrealloc : o.realloc with
        | true =>
          refine Or.inl ?_
          rw [← writeValue_eq hold (some value), Option.map_some]
          simp [hsame]
        | false =>
          refine Or.inr (Or.inr ⟨?_, rfl, ?_⟩)
          · rw [← writeValue_eq hold none, Option.map_some]
            simp [hsame]
          · refine ⟨fun hkeeps => ?_, fun hnone _ _ => Or.inl hnone⟩
            exact (hkeeps (by omega) hrealloc).resolve_right fun heq => hsame (hget ▸ heq)

/-- Every tuple is at home, once, and holds the value of the last successful set. -/
structure Holds (events : List (Call × ℤ)) (h : Handle) : Prop where
  table : Buckets.Wf bucket h.nvramHash
  value : ∀ name, lookup h name = (lastSet events name).map some

theorem Holds.get {events : List (Call × ℤ)} {h : Handle} (hh : Holds events h) (name : CString) :
    nvramGet h (some name) = lastSet events name := by
  rw [nvramGet_eq, hh.value]
  cases lastSet events name with
  | none => rfl
  | some value => rfl

theorem Holds.set {events : List (Call × ℤ)} {h : Handle} (hh : Holds events h) (o : Outcome)
    (name value : CString) (hkeeps : KeepsValue h (.set name value o)) :
    Holds ((.set name value o, (nvramSet h o name value).1) :: events)
      (nvramSet h o name value).2 := by
  have hlast (ret : ℤ) (name' : CString) : lastSet ((.set name value o, ret) :: events) name' =
      if ret = 0 ∧ name' = name then some value else lastSet events name' := rfl
  rcases nvramSet_cases h o name value with hset | ⟨hset, _⟩ | ⟨hset, hsome, hiff⟩
  · rw [hset]
    refine ⟨hh.table.insert name (some value), fun name' => ?_⟩
    rw [lookup_putTuple, hlast]
    by_cases hname : name' = name
    · rw [if_pos hname, if_pos ⟨rfl, hname⟩, Option.map_some]
    · rw [if_neg hname, if_neg fun h => hname h.2, hh.value]
  · rw [hset]
    refine ⟨hh.table, fun name' => ?_⟩
    rw [hlast, if_neg fun h => absurd (show (-12 : ℤ) = 0 from h.1) (by decide), hh.value]
  · have hget := hiff.mp hkeeps
    rw [hh.get] at hget
    rw [hh.value, hget] at hsome
    exact absurd hsome Bool.false_ne_true

theorem lookup_nvramUnset {h : Handle} (htable : Buckets.Wf bucket h.nvramHash)
    (name name' : CString) :
    lookup (nvramUnset h (some name)).2 name' = if name' = name then none else lookup h name' := by
  unfold nvramUnset
  dsimp only
  rw [findTuple_eq]
  cases hold : lookup h name with
  | none =>
    by_cases hname : name' = name
    · rw [if_pos hname, hname]
      exact hold
    · rw [if_neg hname]
      rfl
  | some old => exact htable.lookup_erase name name'

theorem wf_nvramUnset {h : Handle} (htable : Buckets.Wf bucket h.nvramHash)
    (name : Option CString) : Buckets.Wf bucket (nvramUnset h name).2.nvramHash := by
  unfold nvramUnset
  split
  · exact htable
  · split
    · exact htable
    · exact htable.erase _

theorem Holds.unset {events : List (Call × ℤ)} {h : Handle} (hh : Holds events h)
    (name : Option CString) (ret : ℤ) :
    Holds ((.unset name, ret) :: events) (nvramUnset h name).2 := by
  refine ⟨wf_nvramUnset hh.table name, fun name' => ?_⟩
  change _ = (if some name' = name then none else lastSet events name').map some
  cases name with
  | none =>
    rw [if_neg (Option.some_ne_none name')]
    exact hh.value name'
  | some name =>
    rw [lookup_nvramUnset hh.table]
    by_cases hname : name' = name
    · rw [if_pos hname, if_pos (congrArg some hname)]
      rfl
    · rw [if_neg hname, if_neg fun heq => hname (Option.some.inj heq), hh.value]

theorem Run.holds {start h : Handle} {events : List (Call × ℤ)}
    (hstart : start.nvramHash = fun _ => []) (hrun : Run KeepsValue start events h) :
    Holds events h := by
  induction hrun with
  | nil =>
    refine ⟨?_, fun name => ?_⟩
    · rw [hstart]
      exact Buckets.wf_empty bucket
    · unfold lookup
      rw [hstart]
      rfl
  | call c _ hkeeps ih =>
    cases c with
    | set name value o => exact ih.set o name value hkeeps
    | unset name => exact ih.unset name _
    | get name => exact ⟨ih.table, ih.value⟩

theorem listBucket_all {malloc : ℕ → Bool} (hmalloc : ∀ k, malloc k = true) (ts : List Tuple)
    (s : List Tuple × ℕ) : (listBucket malloc ts s).1 = ts.reverse ++ s.1 := by
  induction ts generalizing s with
  | nil => rfl
  | cons t ts ih =>
    unfold listBucket
    rw [if_pos (hmalloc s.2), ih, List.reverse_cons, List.append_assoc]
    rfl

theorem nvramGetall_all {malloc : ℕ → Bool} (hmalloc : ∀ k, malloc k = true) (h : Handle) :
    nvramGetall malloc h = (Buckets.entries hashSize h.nvramHash).reverse := by
  unfold nvramGetall Buckets.entries
  have hfold (is : List ℕ) (s : List Tuple × ℕ) :
      (is.foldl (fun s i => listBucket malloc (h.nvramHash i) s) s).1 =
        (is.flatMap h.nvramHash).reverse ++ s.1 := by
    induction is generalizing s with
    | nil => rfl
    | cons i is ih =>
      rw [List.foldl_cons, ih, listBucket_all hmalloc, List.flatMap_cons, List.reverse_append,
        List.append_assoc]
  rw [hfold, List.append_nil]

theorem Holds.isMap {events : List (Call × ℤ)} {h : Handle} (hh : Holds events h) :
    IsMap events h := by
  refine ⟨hh.table.nodup_entries hashSize, hh.get, fun malloc hmalloc => ?_⟩
  rw [nvramGetall_all hmalloc]
  refine ⟨?_, fun name value => ?_⟩
  · rw [List.map_reverse, List.nodup_reverse]
    exact hh.table.nodup_entries hashSize
  · have hmem : (name, value) ∈ Buckets.entries hashSize h.nvramHash ↔ lookup h name = some value :=
      (hh.table.lookup_iff bucket_lt).symm
    rw [List.mem_reverse, hmem, hh.value, hh.get]
    cases lastSet events name with
    | none => cases value <;> simp
    | some stored => cases value <;> simp

/-- A failing set leaves all values alone exactly when it keeps the old value. -/
theorem failed_keeps_iff {h : Handle} {o : Outcome} {name value : CString}
    (hfail : (nvramSet h o name value).1 = -12) :
    (∀ name', nvramGet (nvramSet h o name value).2 (some name') = nvramGet h (some name')) ↔
      KeepsValue h (.set name value o) := by
  rcases nvramSet_cases h o name value with hset | ⟨hset, hkeeps⟩ | ⟨hset, _, hiff⟩
  · rw [hset] at hfail
    exact absurd (show (0 : ℤ) = -12 from hfail) (by decide)
  · rw [hset]
    exact ⟨fun _ => hkeeps, fun _ _ => rfl⟩
  · rw [hset, hiff]
    constructor
    · intro hall
      rw [← hall name, nvramGet_eq, lookup_putTuple, if_pos rfl]
      rfl
    · intro hnone name'
      rw [nvramGet_eq, lookup_putTuple]
      by_cases hname : name' = name
      · rw [if_pos hname, hname, hnone]
        rfl
      · rw [if_neg hname, nvramGet_eq]

/-- In every run whose sets keep the old value, the table is the finite map of the
successful sets, and the next failing set changes no value exactly when it keeps the
old one as well. -/
theorem nvram_run_map {start h : Handle} {events : List (Call × ℤ)}
    (hstart : start.nvramHash = fun _ => []) (hrun : Run KeepsValue start events h) :
    IsMap events h ∧ ∀ name value o, (nvramSet h o name value).1 = -12 →
      ((∀ name', nvramGet (nvramSet h o name value).2 (some name') = nvramGet h (some name')) ↔
        KeepsValue h (.set name value o)) :=
  ⟨(hrun.holds hstart).isMap, fun _ _ _ => failed_keeps_iff⟩

def emptyTable : Handle := ⟨64, 0, fun _ => [], []⟩

theorem nvram_run_map_example :
    nvramGet (nvramSet emptyTable ⟨true, true⟩ (CString.ofString "a") (CString.ofString "b")).2
        (some (CString.ofString "a")) = some (CString.ofString "b") ∧
      (nvramSet emptyTable ⟨false, true⟩ (CString.ofString "a") (CString.ofString "b")).1 = -12 ∧
      ∀ name', nvramGet (nvramSet emptyTable ⟨false, true⟩ (CString.ofString "a")
        (CString.ofString "b")).2 (some name') = nvramGet emptyTable (some name') := by
  have hstored := (@nvram_run_map emptyTable _ _ rfl
    (Run.call (.set (CString.ofString "a") (CString.ofString "b") ⟨true, true⟩) Run.nil
      fun _ _ => Or.inl rfl)).1.get (CString.ofString "a")
  have hfail : (nvramSet emptyTable ⟨false, true⟩ (CString.ofString "a")
    (CString.ofString "b")).1 = -12 := by decide
  refine ⟨hstored.trans (by decide), hfail, ?_⟩
  exact ((@nvram_run_map emptyTable _ _ rfl Run.nil).2 _ _ _ hfail).mpr
    fun _ _ => Or.inl rfl

/-- The second set fails in realloc, and the value of the first is gone. -/
theorem failed_realloc_loses_value :
    ∃ (events : List (Call × ℤ)) (h : Handle), Run (fun _ _ => True) emptyTable events h ∧
      lastSet events (CString.ofString "a") = some (CString.ofString "b") ∧
      nvramGet h (some (CString.ofString "a")) = none := by
  refine ⟨_, _, Run.call (.set (CString.ofString "a") (CString.ofString "cc") ⟨true, false⟩)
    (Run.call (.set (CString.ofString "a") (CString.ofString "b") ⟨true, true⟩) Run.nil trivial)
    trivial, ?_, ?_⟩
  · decide
  · decide

/-- The table of a handle whose allocations all succeeded. -/
def ofHandle (h : Nvram.Handle) : Handle where
  length := h.length
  offset := h.offset
  nvramHash := Buckets.mapValues some h.nvramHash
  nvramDead := h.nvramDead.map (Prod.map id some)

theorem nvramSet_allocated {h : Handle} {name value : CString}
    (hfit : value.strlen + 1 ≤ h.length - h.offset) :
    nvramSet h ⟨true, true⟩ name value = (0, putTuple h name (some value)) := by
  unfold nvramSet nvramRealloc
  rw [if_neg (by omega), findTuple_eq]
  cases hold : lookup h name with
  | none => exact congrArg (Prod.mk 0) (addTuple_eq hold (some value))
  | some old =>
    by_cases hsame : old = some value
    · rw [← hsame, putTuple_self hold]
      simp [hsame]
    · rw [← writeValue_eq hold (some value)]
      simp [hsame]

/-- When all allocations succeed, nvram_set is the one of the model without them. -/
theorem nvramSet_ofHandle (h : Nvram.Handle) (name value : CString) :
    nvramSet (ofHandle h) ⟨true, true⟩ name value =
      match Nvram.nvramSet h name value with
      | none => (-12, ofHandle h)
      | some h' => (0, ofHandle h') := by
  unfold Nvram.nvramSet
  by_cases hlong : value.strlen + 1 > h.length - h.offset
  · rw [if_pos hlong]
    unfold nvramSet nvramRealloc
    rw [if_pos (show value.strlen + 1 > (ofHandle h).length - (ofHandle h).offset from hlong)]
    rfl
  · rw [if_neg hlong, nvramSet_allocated (h := ofHandle h) (Nat.le_of_not_gt hlong)]
    unfold putTuple ofHandle
    rw [Buckets.insert_map]

/-- The same for nvram_get. -/
theorem nvramGet_ofHandle (h : Nvram.Handle) (name : CString) :
    nvramGet (ofHandle h) (some name) = Nvram.nvramGet h name := by
  rw [nvramGet_eq]
  change (Buckets.find name ((h.nvramHash (bucket name)).map (Prod.map id some))).join = _
  rw [Buckets.find_map]
  unfold Nvram.nvramGet Buckets.lookup
  cases Buckets.find name (h.nvramHash (bucket name)) with
  | none => rfl
  | some value => rfl

end Iot7688.Nvram.Alloc
