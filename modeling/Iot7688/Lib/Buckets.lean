import Mathlib.Data.List.Nodup

/-!
Hash tables with chained buckets. A key lives in the bucket of its index; putting
a key replaces its entry in place or adds one in front. As long as every key is at
home and no bucket repeats a key, lookups follow the laws of finite maps and agree
with the list of all entries.
-/
namespace Iot7688.Lib.Buckets

variable {α β : Type*}

abbrev Table (α β : Type*) := ℕ → List (α × β)

section

variable [DecidableEq α]

def find (key : α) (b : List (α × β)) : Option β :=
  (b.find? fun e => decide (e.1 = key)).map Prod.snd

def replace (key : α) (value : β) : List (α × β) → List (α × β)
  | [] => []
  | e :: es => if e.1 = key then (e.1, value) :: es else e :: replace key value es

def put (key : α) (value : β) (b : List (α × β)) : List (α × β) :=
  if (find key b).isSome then replace key value b else (key, value) :: b

def remove (key : α) (b : List (α × β)) : List (α × β) := b.eraseP fun e => decide (e.1 = key)

theorem find_cons (key : α) (e : α × β) (es : List (α × β)) :
    find key (e :: es) = if e.1 = key then some e.2 else find key es := by
  unfold find
  by_cases h : e.1 = key
  · simp [h]
  · simp [h]

theorem find_eq_none {key : α} {b : List (α × β)} :
    find key b = none ↔ key ∉ b.map Prod.fst := by
  induction b with
  | nil => simp [find]
  | cons e es ih =>
    rw [find_cons, List.map_cons, List.mem_cons, not_or]
    by_cases h : e.1 = key
    · simp [h]
    · rw [if_neg h, ih]
      exact ⟨fun hes => ⟨fun heq => h heq.symm, hes⟩, fun hes => hes.2⟩

theorem find_replace (key key' : α) (value : β) (b : List (α × β)) :
    find key' (replace key value b) =
      if key' = key then (find key b).map fun _ => value else find key' b := by
  induction b with
  | nil => simp [replace, find]
  | cons e es ih =>
    unfold replace
    by_cases h : e.1 = key
    · rw [if_pos h, find_cons, find_cons, find_cons, if_pos h]
      by_cases hk : key' = key
      · simp [hk, h]
      · have hne : e.1 ≠ key' := fun heq => hk (heq.symm.trans h)
        simp [hk, hne]
    · rw [if_neg h, find_cons, ih, find_cons, find_cons, if_neg h]
      by_cases hk : key' = key
      · have hne : e.1 ≠ key' := fun heq => h (heq.trans hk)
        simp [hk, h]
      · simp [hk]

theorem find_put (key key' : α) (value : β) (b : List (α × β)) :
    find key' (put key value b) = if key' = key then some value else find key' b := by
  unfold put
  split
  · rename_i hsome
    obtain ⟨v, hv⟩ := Option.isSome_iff_exists.mp hsome
    rw [find_replace, hv]
    rfl
  · rw [find_cons]
    exact if_congr eq_comm rfl rfl

theorem replace_keys (key : α) (value : β) (b : List (α × β)) :
    (replace key value b).map Prod.fst = b.map Prod.fst := by
  induction b with
  | nil => rfl
  | cons e es ih =>
    unfold replace
    split
    · rfl
    · rw [List.map_cons, List.map_cons, ih]

theorem nodup_put {key : α} {b : List (α × β)} (value : β) (h : (b.map Prod.fst).Nodup) :
    ((put key value b).map Prod.fst).Nodup := by
  unfold put
  split
  · rwa [replace_keys]
  · rename_i hnone
    rw [List.map_cons, List.nodup_cons]
    exact ⟨find_eq_none.mp (by simpa using hnone), h⟩

theorem replace_self {key : α} {value : β} {b : List (α × β)} (h : find key b = some value) :
    replace key value b = b := by
  induction b with
  | nil => rfl
  | cons e es ih =>
    rw [find_cons] at h
    unfold replace
    by_cases hk : e.1 = key
    · rw [if_pos hk] at h ⊢
      rw [← Option.some.inj h]
    · rw [if_neg hk] at h ⊢
      rw [ih h]

theorem mem_replace {key : α} {value : β} {b : List (α × β)} {e : α × β}
    (h : e ∈ replace key value b) : e = (key, value) ∨ e ∈ b := by
  induction b with
  | nil => exact Or.inr h
  | cons e' es ih =>
    unfold replace at h
    split at h
    · rename_i hkey
      rcases List.mem_cons.mp h with heq | hes
      · exact Or.inl (heq.trans (by rw [hkey]))
      · exact Or.inr (List.mem_cons_of_mem _ hes)
    · rcases List.mem_cons.mp h with heq | hes
      · exact Or.inr (heq ▸ List.mem_cons_self)
      · exact (ih hes).imp_right (List.mem_cons_of_mem _)

theorem mem_put {key : α} {value : β} {b : List (α × β)} {e : α × β}
    (h : e ∈ put key value b) : e = (key, value) ∨ e ∈ b := by
  unfold put at h
  split at h
  · exact mem_replace h
  · exact List.mem_cons.mp h

theorem mem_remove {key : α} {b : List (α × β)} {e : α × β} (h : e ∈ remove key b) : e ∈ b :=
  List.mem_of_mem_eraseP h

theorem find_remove {key : α} {b : List (α × β)} (h : (b.map Prod.fst).Nodup) (key' : α) :
    find key' (remove key b) = if key' = key then none else find key' b := by
  induction b with
  | nil => simp [remove, find]
  | cons e es ih =>
    rw [List.map_cons, List.nodup_cons] at h
    unfold remove at ih ⊢
    by_cases hk : e.1 = key
    · rw [List.eraseP_cons_of_pos (by simpa using hk), find_cons]
      by_cases hkey : key' = key
      · rw [if_pos hkey, hkey, find_eq_none, ← hk]
        exact h.1
      · rw [if_neg hkey, if_neg fun heq => hkey (heq.symm.trans hk)]
    · rw [List.eraseP_cons_of_neg (by simpa using hk), find_cons, find_cons, ih h.2]
      by_cases hkey : key' = key
      · rw [if_pos hkey, if_neg fun heq => hk (heq.trans hkey), if_pos hkey]
      · rw [if_neg hkey, if_neg hkey]

theorem nodup_remove (key : α) {b : List (α × β)} (h : (b.map Prod.fst).Nodup) :
    ((remove key b).map Prod.fst).Nodup :=
  h.sublist ((List.eraseP_sublist).map Prod.fst)

theorem find_iff_mem {key : α} {value : β} {b : List (α × β)} (h : (b.map Prod.fst).Nodup) :
    find key b = some value ↔ (key, value) ∈ b := by
  induction b with
  | nil => simp [find]
  | cons e es ih =>
    rw [List.map_cons, List.nodup_cons] at h
    rw [find_cons, List.mem_cons]
    by_cases hk : e.1 = key
    · rw [if_pos hk]
      constructor
      · intro hv
        exact Or.inl (Prod.ext hk.symm (Option.some.inj hv).symm)
      · rintro (heq | hes)
        · rw [← heq]
        · exact absurd (List.mem_map.mpr ⟨_, hes, rfl⟩) (hk ▸ h.1)
    · rw [if_neg hk, ih h.2]
      constructor
      · exact Or.inr
      · rintro (heq | hes)
        · exact absurd (congrArg Prod.fst heq).symm hk
        · exact hes

variable (index : α → ℕ)

def lookup (t : Table α β) (key : α) : Option β := find key (t (index key))

def insert (t : Table α β) (key : α) (value : β) : Table α β :=
  Function.update t (index key) (put key value (t (index key)))

def erase (t : Table α β) (key : α) : Table α β :=
  Function.update t (index key) (remove key (t (index key)))

end

/-- Every key is at home, and no bucket has a key twice. -/
structure Wf (index : α → ℕ) (t : Table α β) : Prop where
  home : ∀ i e, e ∈ t i → index e.1 = i
  nodup : ∀ i, ((t i).map Prod.fst).Nodup

def entries (n : ℕ) (t : Table α β) : List (α × β) := (List.range n).flatMap t

variable {index : α → ℕ} {t : Table α β}

theorem wf_empty (index : α → ℕ) : Wf index (fun _ => [] : Table α β) where
  home _ _ he := absurd he List.not_mem_nil
  nodup _ := List.nodup_nil

theorem Wf.nodup_entries (h : Wf index t) (n : ℕ) : ((entries n t).map Prod.fst).Nodup := by
  unfold entries
  rw [List.map_flatMap, List.nodup_flatMap]
  refine ⟨fun i _ => h.nodup i, List.pairwise_lt_range.imp ?_⟩
  intro i j hij key hi hj
  obtain ⟨e, he, rfl⟩ := List.mem_map.mp hi
  obtain ⟨e', he', heq⟩ := List.mem_map.mp hj
  have hhome := h.home i e he
  have hhome' := h.home j e' he'
  rw [heq] at hhome'
  omega

variable [DecidableEq α]

theorem Wf.insert (h : Wf index t) (key : α) (value : β) :
    Wf index (insert index t key value) := by
  constructor
  · intro i e he
    unfold Buckets.insert at he
    by_cases hi : i = index key
    · rw [hi, Function.update_self] at he
      rcases mem_put he with rfl | hmem
      · exact hi.symm
      · rw [hi]
        exact h.home _ e hmem
    · rw [Function.update_of_ne hi] at he
      exact h.home i e he
  · intro i
    unfold Buckets.insert
    by_cases hi : i = index key
    · rw [hi, Function.update_self]
      exact nodup_put value (h.nodup _)
    · rw [Function.update_of_ne hi]
      exact h.nodup i

theorem Wf.erase (h : Wf index t) (key : α) : Wf index (erase index t key) := by
  constructor
  · intro i e he
    unfold Buckets.erase at he
    by_cases hi : i = index key
    · rw [hi, Function.update_self] at he
      rw [hi]
      exact h.home _ e (mem_remove he)
    · rw [Function.update_of_ne hi] at he
      exact h.home i e he
  · intro i
    unfold Buckets.erase
    by_cases hi : i = index key
    · rw [hi, Function.update_self]
      exact nodup_remove key (h.nodup _)
    · rw [Function.update_of_ne hi]
      exact h.nodup i

theorem lookup_insert (t : Table α β) (key key' : α) (value : β) :
    lookup index (insert index t key value) key' =
      if key' = key then some value else lookup index t key' := by
  unfold lookup insert
  by_cases hi : index key' = index key
  · rw [hi, Function.update_self, find_put]
  · have hne : key' ≠ key := fun heq => hi (congrArg index heq)
    rw [Function.update_of_ne hi, if_neg hne]

/-- Putting the value that is there already. -/
theorem insert_self {t : Table α β} {key : α} {value : β}
    (h : lookup index t key = some value) : insert index t key value = t := by
  have hfind : find key (t (index key)) = some value := h
  unfold insert put
  rw [hfind, Option.isSome_some, if_pos rfl, replace_self hfind, Function.update_eq_self]

theorem Wf.lookup_erase (h : Wf index t) (key key' : α) :
    lookup index (Buckets.erase index t key) key' =
      if key' = key then none else lookup index t key' := by
  unfold lookup Buckets.erase
  by_cases hi : index key' = index key
  · rw [hi, Function.update_self, find_remove (h.nodup _)]
  · have hne : key' ≠ key := fun heq => hi (congrArg index heq)
    rw [Function.update_of_ne hi, if_neg hne]

theorem Wf.lookup_iff (h : Wf index t) {n : ℕ} (hn : ∀ key, index key < n) {key : α} {value : β} :
    lookup index t key = some value ↔ (key, value) ∈ entries n t := by
  unfold lookup entries
  rw [find_iff_mem (h.nodup _), List.mem_flatMap]
  constructor
  · intro hmem
    exact ⟨index key, List.mem_range.mpr (hn key), hmem⟩
  · rintro ⟨i, _, hmem⟩
    rwa [h.home i _ hmem]

section

variable {γ : Type*}

/-- The same keys with their values mapped. -/
def mapValues (g : β → γ) (t : Table α β) : Table α γ := fun i => (t i).map (Prod.map id g)

theorem find_map (g : β → γ) (key : α) (b : List (α × β)) :
    find key (b.map (Prod.map id g)) = (find key b).map g := by
  induction b with
  | nil => rfl
  | cons e es ih =>
    rw [List.map_cons, find_cons, find_cons, ih]
    change (if e.1 = key then _ else _) = _
    split
    · rfl
    · rfl

theorem replace_map (g : β → γ) (key : α) (value : β) (b : List (α × β)) :
    replace key (g value) (b.map (Prod.map id g)) = (replace key value b).map (Prod.map id g) := by
  induction b with
  | nil => rfl
  | cons e es ih =>
    unfold replace
    change (if e.1 = key then _ else _) = _
    split
    · rfl
    · exact congrArg (List.cons _) ih

theorem insert_map (g : β → γ) (t : Table α β) (key : α) (value : β) :
    insert index (mapValues g t) key (g value) = mapValues g (insert index t key value) := by
  have hput (b : List (α × β)) :
      put key (g value) (b.map (Prod.map id g)) = (put key value b).map (Prod.map id g) := by
    unfold put
    rw [find_map, replace_map, Option.isSome_map]
    split
    · rfl
    · rfl
  funext i
  unfold insert mapValues
  by_cases hi : i = index key
  · rw [hi, Function.update_self, Function.update_self, hput]
  · rw [Function.update_of_ne hi, Function.update_of_ne hi]

end

end Iot7688.Lib.Buckets
