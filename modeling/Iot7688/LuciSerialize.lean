import Iot7688.Lib.LuaExpr
import Iot7688.Lib.Visited

/-!
serialize_data and restore_data of luci.util. A table is written as a constructor: what
has a place up to a little behind the border of its array part comes without keys, the
rest with keys. Nothing takes a table out of `seen` again, so that a table that is
reached a second time is taken for a recursion. Elsewhere the serialisation comes to the
text of the value, and that is read as a value whose numbers are rounded.
-/
namespace Iot7688.LuciSerialize

open Lib Lib.Lua

/-- The whole numbers that a number holds exactly. -/
abbrev Exact := {n : ℤ // n.natAbs < 2 ^ 53}

inductive Val
  | bool (b : Bool)
  | int (n : Exact)
  | str (s : List Byte)
  | table (id : ℕ)
deriving DecidableEq

def numeric (n : ℤ) : Val → Bool
  | .int k => k.1 == n
  | _ => false

/-- The value at a number. -/
def place (entries : List (Val × Val)) (n : ℤ) : Option Val :=
  (entries.find? fun e => numeric n e.1).map Prod.snd

/-- A table. `pairs` goes through the entries in this order. -/
structure Table where
  entries : List (Val × Val)
  distinct : (entries.map Prod.fst).Nodup
  /-- `#t`: an int, and a border of the array part. -/
  length : ℕ
  length_lt : length < 2 ^ 31
  border : (length = 0 ∨ place entries length ≠ none) ∧ place entries (length + 1 : ℕ) = none

/-- The tables behind the identities. A table is above those that it holds. -/
structure Heap where
  table : ℕ → Table
  rank : ℕ → ℕ
  acyclic : ∀ id, ∀ e ∈ (table id).entries, ∀ j, e.1 = .table j ∨ e.2 = .table j → rank j < rank id

def Heap.height (h : Heap) : Val → ℕ
  | .table id => h.rank id + 1
  | _ => 0

section

variable (t : Table)

/-- The test of the loop in _serialize_table. -/
def Table.keyed : Val → Bool
  | .int k => k.1 < 1 || k.1 - t.length > 3
  | _ => true

def number : Val → ℕ
  | .int k => k.1.toNat
  | _ => 0

/-- `data .. ( #data > 0 and ", " or "" ) .. s`. -/
def append (data s : List Byte) : List Byte :=
  data ++ (if data = [] then [] else [comma, 0x20]) ++ s

/-- serialize_data for what a table holds, with `seen` as it is and as it is left. -/
abbrev Writer := Option Val → List ℕ → Option (List Byte × List ℕ)

variable (write : Writer)

def pairsLoop : List (Val × Val) → List Byte × ℕ → List ℕ →
    Option ((List Byte × ℕ) × List ℕ)
  | [], st, seen => some (st, seen)
  | (k, v) :: es, (data, ilen), seen =>
      if t.keyed k then do
        let (key, seen) ← write (some k) seen
        let (value, seen) ← write (some v) seen
        let field := openBracket :: key ++ closeBracket :: 0x20 :: equals :: 0x20 :: value
        pairsLoop es (append data field, ilen) seen
      else if number k > ilen then pairsLoop es (data, number k) seen
      else pairsLoop es (data, ilen) seen

def placesLoop : List ℕ → List Byte → List ℕ → Option (List Byte × List ℕ)
  | [], idata, seen => some (idata, seen)
  | i :: places, idata, seen => do
      let (value, seen) ← write (place t.entries i) seen
      placesLoop places (append idata value) seen

end

/-- `idata .. ( #data > 0 and #idata > 0 and ", " or "" ) .. data`. -/
def appendBoth (idata data : List Byte) : List Byte :=
  idata ++ (if data ≠ [] ∧ idata ≠ [] then [comma, 0x20] else []) ++ data

def serializeTable (write : Writer) (h : Heap) (id : ℕ) (seen : List ℕ) :
    Option (List Byte × List ℕ) :=
  -- The assertion "Recursion detected."
  if id ∈ seen then none
  else do
    let ((data, ilen), seen) ←
      pairsLoop (h.table id) write (h.table id).entries ([], 0) (id :: seen)
    let (idata, seen) ← placesLoop (h.table id) write (List.range' 1 ilen) [] seen
    some (appendBoth idata data, seen)

/-- The first number bounds how deep the tables are nested. -/
def serializeData (h : Heap) : ℕ → Writer
  | _, none, seen => some (nilText, seen)
  | _, some (.int n), seen => some (intText n, seen)
  | _, some (.str s), seen => some (quoted s, seen)
  | _, some (.bool b), seen => some (constantText (some b), seen)
  | 0, some (.table _), _ => none
  | depth + 1, some (.table id), seen => do
      let (fields, seen) ← serializeTable (serializeData h depth) h id seen
      some (openBrace :: 0x20 :: (fields ++ [0x20, closeBrace]), seen)

/-- serialize_data without `seen`. -/
def serialize (h : Heap) (v : Val) : Option (List Byte) :=
  (serializeData h (h.height v) (some v) []).map Prod.fst

/-- An error, or what the chunk returns. -/
def restoreData (str : List Byte) : Option (Option Tree) := returned (returnText ++ 0x20 :: str)

/-- Structural equality: the entries of a table in some order. -/
inductive Same (h : Heap) : Val → Tree → Prop
  | bool (b : Bool) : Same h (.bool b) (.bool b)
  | int (n : Exact) : Same h (.int n) (.int n)
  | str (s : List Byte) : Same h (.str s) (.str s)
  | table (id : ℕ) (ps : List (Val × Val)) (es : List (Tree × Tree)) :
      ps.Perm (h.table id).entries → ps.length = es.length →
      (∀ x ∈ ps.zip es, Same h x.1.1 x.2.1) → (∀ x ∈ ps.zip es, Same h x.1.2 x.2.2) →
      Same h (.table id) (.table es)

def RoundTrips (h : Heap) (v : Val) : Prop :=
  ∃ str t, serialize h v = some str ∧ restoreData str = some (some t) ∧ Same h v t

/-- A number that a value holds. -/
inductive Occurs (h : Heap) : Val → ℤ → Prop
  | int (n : Exact) : Occurs h (.int n) n
  | key {id : ℕ} {e : Val × Val} {n : ℤ} :
      e ∈ (h.table id).entries → Occurs h e.1 n → Occurs h (.table id) n
  | value {id : ℕ} {e : Val × Val} {n : ℤ} :
      e ∈ (h.table id).entries → Occurs h e.2 n → Occurs h (.table id) n

/-- The tables that are met on all ways into a value. -/
def reachedWithin (h : Heap) : ℕ → Val → List ℕ
  | depth + 1, .table id =>
      id :: (h.table id).entries.flatMap fun e =>
        reachedWithin h depth e.1 ++ reachedWithin h depth e.2
  | _, _ => []

def Heap.reached (h : Heap) (v : Val) : List ℕ := reachedWithin h (h.height v) v

/-- No table is met on two ways. -/
def Unshared (h : Heap) (v : Val) : Prop := (h.reached v).Nodup

theorem numeric_iff {n : ℤ} {v : Val} : numeric n v = true ↔ ∃ h, v = .int ⟨n, h⟩ := by
  cases v with
  | int k =>
    rw [numeric, beq_iff_eq]
    constructor
    · rintro rfl
      exact ⟨k.2, rfl⟩
    · rintro ⟨h, hk⟩
      exact congrArg Subtype.val (Val.int.inj hk)
  | bool b => simp [numeric]
  | str s => simp [numeric]
  | table id => simp [numeric]

section

variable (t : Table)

/-- The entry at a number. -/
def Table.entryAt (n : ℤ) : Option (Val × Val) := t.entries.find? fun e => numeric n e.1

theorem place_eq (n : ℤ) : place t.entries n = (t.entryAt n).map Prod.snd := rfl

variable {t}

theorem entryAt_spec {n : ℤ} {e : Val × Val} (h : t.entryAt n = some e) :
    e ∈ t.entries ∧ numeric n e.1 = true := by
  have hfound := List.find?_some h
  exact ⟨List.mem_of_find?_eq_some h, hfound⟩

theorem entryAt_of_mem {n : ℤ} {e : Val × Val} (he : e ∈ t.entries) (hn : numeric n e.1 = true) :
    t.entryAt n = some e := by
  cases hfound : t.entryAt n with
  | none => exact absurd hn (List.find?_eq_none.mp hfound e he)
  | some e' =>
    obtain ⟨he', hn'⟩ := entryAt_spec hfound
    obtain ⟨_, hkey⟩ := numeric_iff.mp hn
    obtain ⟨_, hkey'⟩ := numeric_iff.mp hn'
    rw [List.inj_on_of_nodup_map t.distinct he' he (hkey'.trans hkey.symm)]

/-- An entry without a key in the text is at a place up to a little behind the border. -/
theorem keyed_eq_false {k : Val} :
    t.keyed k = false ↔ ∃ i : ℕ, numeric i k = true ∧ 1 ≤ i ∧ i ≤ t.length + 3 := by
  cases k with
  | int k =>
    rw [Table.keyed, Bool.or_eq_false_iff, decide_eq_false_iff_not, decide_eq_false_iff_not]
    constructor
    · rintro ⟨hlow, hhigh⟩
      refine ⟨k.1.toNat, ?_, by omega, by omega⟩
      rw [numeric, beq_iff_eq]
      omega
    · rintro ⟨i, hi, hlow, hhigh⟩
      rw [numeric, beq_iff_eq] at hi
      omega
  | bool b => simp [Table.keyed, numeric]
  | str s => simp [Table.keyed, numeric]
  | table id => simp [Table.keyed, numeric]

variable (t)

/-- `ilen` behind the entries. -/
def Table.lastOf (es : List (Val × Val)) (ilen : ℕ) : ℕ :=
  es.foldl (fun ilen e => if t.keyed e.1 then ilen else max ilen (number e.1)) ilen

def Table.last : ℕ := t.lastOf t.entries 0

theorem le_lastOf (es : List (Val × Val)) (ilen : ℕ) :
    ilen ≤ t.lastOf es ilen ∧
      ∀ e ∈ es, t.keyed e.1 = false → number e.1 ≤ t.lastOf es ilen := by
  induction es generalizing ilen with
  | nil => exact ⟨le_rfl, fun e he => absurd he List.not_mem_nil⟩
  | cons e es ih =>
    obtain ⟨hlen, hes⟩ := ih (if t.keyed e.1 then ilen else max ilen (number e.1))
    have hstep : t.lastOf (e :: es) ilen =
      t.lastOf es (if t.keyed e.1 then ilen else max ilen (number e.1)) := rfl
    rw [hstep]
    refine ⟨?_, fun e' he' hkeyed => ?_⟩
    · refine le_trans ?_ hlen
      split
      · exact le_rfl
      · exact le_max_left _ _
    · rcases List.mem_cons.mp he' with rfl | hmem
      · rw [if_neg (by simp [hkeyed])] at hlen ⊢
        exact (le_max_right _ _).trans hlen
      · exact hes e' hmem hkeyed

theorem lastOf_le (es : List (Val × Val)) {ilen : ℕ} (h : ilen ≤ t.length + 3) :
    t.lastOf es ilen ≤ t.length + 3 := by
  induction es generalizing ilen with
  | nil => exact h
  | cons e es ih =>
    apply ih
    show (if t.keyed e.1 then ilen else max ilen (number e.1)) ≤ t.length + 3
    split
    · exact h
    · next hkeyed =>
      obtain ⟨i, hi, _, hhigh⟩ := keyed_eq_false.mp (Bool.eq_false_of_not_eq_true hkeyed)
      obtain ⟨_, hkey⟩ := numeric_iff.mp hi
      rw [hkey]
      exact max_le h hhigh

theorem last_le : t.last ≤ t.length + 3 := lastOf_le t t.entries (Nat.zero_le _)

/-- The entries that are written at their places. -/
def Table.placed : List (Val × Val) :=
  (List.range' 1 t.last).filterMap fun i : ℕ => t.entryAt i

/-- The entries that are written with their keys. -/
def Table.kept : List (Val × Val) := t.entries.filter fun e => t.keyed e.1

theorem mem_placed {e : Val × Val} :
    e ∈ t.placed ↔ e ∈ t.entries ∧ t.keyed e.1 = false := by
  unfold Table.placed
  rw [List.mem_filterMap]
  constructor
  · rintro ⟨i, hi, hentry⟩
    obtain ⟨he, hn⟩ := entryAt_spec hentry
    rw [List.mem_range'_1] at hi
    have hlast := last_le t
    exact ⟨he, keyed_eq_false.mpr ⟨i, hn, hi.1, by omega⟩⟩
  · rintro ⟨he, hkeyed⟩
    obtain ⟨i, hn, hlow, _⟩ := keyed_eq_false.mp hkeyed
    refine ⟨i, ?_, entryAt_of_mem he hn⟩
    obtain ⟨_, hkey⟩ := numeric_iff.mp hn
    have hle := (le_lastOf t t.entries 0).2 e he hkeyed
    rw [hkey] at hle
    have hi : i ≤ t.last := hle
    rw [List.mem_range'_1]
    omega

theorem placed_append_kept_perm : (t.placed ++ t.kept).Perm t.entries := by
  have hentries : t.entries.Nodup := List.Nodup.of_map Prod.fst t.distinct
  have hplaced : t.placed.Nodup := by
    refine List.Nodup.filterMap (fun i j e hi hj => ?_) List.nodup_range'
    obtain ⟨_, hkeyi⟩ := numeric_iff.mp (entryAt_spec (Option.mem_def.mp hi)).2
    obtain ⟨_, hkeyj⟩ := numeric_iff.mp (entryAt_spec (Option.mem_def.mp hj)).2
    have hkey := Val.int.inj (hkeyi.symm.trans hkeyj)
    exact Int.ofNat.inj (congrArg Subtype.val hkey)
  have hkept (e : Val × Val) : e ∈ t.kept ↔ e ∈ t.entries ∧ t.keyed e.1 = true :=
    List.mem_filter
  have hboth : (t.placed ++ t.kept).Nodup := by
    refine List.nodup_append'.mpr ⟨hplaced, hentries.filter _, fun e hp hk => ?_⟩
    have hno := ((mem_placed t).mp hp).2
    rw [((hkept e).mp hk).2] at hno
    exact Bool.noConfusion hno
  refine (List.perm_ext_iff_of_nodup hboth hentries).mpr fun e => ?_
  rw [List.mem_append, mem_placed, hkept, ← and_or_left, and_iff_left]
  cases t.keyed e.1 <;> simp

end

section

variable (w : Val → List Byte × Tree)

def placeField : Option Val → Field
  | none => .place nilText none
  | some v => .place (w v).1 (some (w v).2)

def keyedField (e : Val × Val) : Field := .keyed (w e.1).1 (w e.2).1 (w e.1).2 (w e.2).2

def placeFields (t : Table) : List Field :=
  (List.range' 1 t.last).map fun i : ℕ => placeField w (place t.entries i)

def fieldsOf (t : Table) : List Field := placeFields w t ++ t.kept.map (keyedField w)

end

/-- The text of a value, and what is read of it. -/
def written (h : Heap) : ℕ → Val → List Byte × Tree
  | _, .bool b => (constantText (some b), .bool b)
  | _, .int n => (intText n, .int (roundedInt n))
  | _, .str s => (quoted s, .str s)
  | 0, .table _ => ([], .table [])
  | depth + 1, .table id =>
      let fs := fieldsOf (written h depth) (h.table id)
      (braced (fs.map Field.text), .table (fs.foldl Field.apply (0, [])).2)

section

variable (h : Heap) (depth : ℕ)

@[simp] theorem written_bool (b : Bool) :
    written h depth (.bool b) = (constantText (some b), .bool b) := by
  cases depth <;> rfl

@[simp] theorem written_int (n : Exact) :
    written h depth (.int n) = (intText n, .int (roundedInt n)) := by
  cases depth <;> rfl

@[simp] theorem written_str (s : List Byte) :
    written h depth (.str s) = (quoted s, .str s) := by
  cases depth <;> rfl

variable {h depth}

/-- What a table holds is nested less deeply. -/
theorem height_le {id : ℕ} (hid : h.height (.table id) ≤ depth + 1) {e : Val × Val}
    (he : e ∈ (h.table id).entries) : h.height e.1 ≤ depth ∧ h.height e.2 ≤ depth := by
  have hrank : h.rank id ≤ depth := Nat.le_of_succ_le_succ hid
  have hchild (v : Val) (hv : ∀ j, v = .table j → h.rank j < h.rank id) : h.height v ≤ depth := by
    cases v with
    | table j => exact (hv j rfl).trans_le hrank
    | _ => exact Nat.zero_le _
  exact ⟨hchild e.1 fun j hj => h.acyclic id e he j (Or.inl hj),
    hchild e.2 fun j hj => h.acyclic id e he j (Or.inr hj)⟩

theorem place_mem {t : Table} {n : ℤ} {v : Val} (hv : place t.entries n = some v) :
    ∃ e ∈ t.entries, e.2 = v := by
  rw [place_eq, Option.map_eq_some_iff] at hv
  obtain ⟨e, he, rfl⟩ := hv
  exact ⟨e, (entryAt_spec he).1, rfl⟩

/-- A property of the places and entries of a table holds of its fields. -/
theorem forall_fieldsOf {w : Val → List Byte × Tree} {t : Table} {P : Field → Prop}
    (hnil : P (.place nilText none)) (hplace : ∀ e ∈ t.entries, P (placeField w (some e.2)))
    (hkeyed : ∀ e ∈ t.entries, P (keyedField w e)) : ∀ f ∈ fieldsOf w t, P f := by
  intro f hf
  rcases List.mem_append.mp hf with hf | hf
  · obtain ⟨i, _, rfl⟩ := List.mem_map.mp hf
    cases hv : place t.entries i with
    | none => exact hnil
    | some v =>
      obtain ⟨e, he, rfl⟩ := place_mem hv
      exact hplace e he
  · obtain ⟨e, he, rfl⟩ := List.mem_map.mp hf
    exact hkeyed e (List.mem_filter.mp he).1

/-- The text of a value is read with a depth beyond its length. -/
theorem readsAs_written {v : Val} (hv : h.height v ≤ depth) {levels : ℕ}
    (hlevels : (written h depth v).1.length < levels) :
    ReadsAs (expr levels) (written h depth v).1 (some (written h depth v).2) := by
  induction depth generalizing v levels with
  | zero =>
    obtain ⟨levels, rfl⟩ : ∃ k, levels = k + 1 := ⟨levels - 1, by omega⟩
    cases v with
    | bool b => exact readsAs_constant levels (some b)
    | int n => exact readsAs_intText levels n
    | str s => exact readsAs_quoted levels s
    | table id => exact absurd hv (Nat.not_succ_le_zero _)
  | succ depth ih =>
    obtain ⟨levels, rfl⟩ : ∃ k, levels = k + 1 := ⟨levels - 1, by omega⟩
    cases v with
    | bool b => exact readsAs_constant levels (some b)
    | int n => exact readsAs_intText levels n
    | str s => exact readsAs_quoted levels s
    | table id =>
      have hfields : ∀ f ∈ fieldsOf (written h depth) (h.table id),
          f.text.length < levels → f.Reads (expr levels) := by
        apply forall_fieldsOf
        · intro hlen
          obtain ⟨levels, rfl⟩ : ∃ k, levels = k + 1 := ⟨levels - 1, by omega⟩
          exact readsAs_constant levels none
        · intro e he hlen
          exact ih (height_le hv he).2 hlen
        · intro e he hlen
          have hsum : (keyedField (written h depth) e).text.length =
              (written h depth e.1).1.length + (written h depth e.2).1.length + 5 := by
            simp [keyedField, Field.text]
            omega
          rw [hsum] at hlen
          exact ⟨ih (height_le hv he).1 (by omega), ih (height_le hv he).2 (by omega)⟩
      refine readsAs_braced levels _ fun f hf => hfields f hf ?_
      have hle := mem_joined_length (List.mem_map_of_mem (f := Field.text) hf)
      have htext : (written h (depth + 1) (.table id)).1.length =
          (joined ((fieldsOf (written h depth) (h.table id)).map Field.text)).length + 4 := by
        simp [written, braced]
      omega

end

section

variable {texts more : List (List Byte)}

theorem joined_eq_nil (h : ∀ s ∈ texts, s ≠ []) : joined texts = [] ↔ texts = [] := by
  refine ⟨fun hnil => ?_, fun hnil => by rw [hnil]; rfl⟩
  have hle := length_le_joined h
  rw [hnil] at hle
  exact List.length_eq_zero_iff.mp (Nat.le_zero.mp hle)

theorem appendBoth_joined (h : ∀ s ∈ texts, s ≠ []) (hmore : ∀ s ∈ more, s ≠ []) :
    appendBoth (joined texts) (joined more) = joined (texts ++ more) := by
  unfold appendBoth
  simp only [ne_eq, joined_eq_nil h, joined_eq_nil hmore]
  induction texts with
  | nil => simp [joined]
  | cons s texts ih =>
    by_cases hnil : more = []
    · simp [hnil, joined]
    cases texts with
    | nil =>
      have hcons : joined (s :: more) = s ++ [comma, 0x20] ++ joined more :=
        List.intercalate_cons_of_ne_nil hnil
      rw [List.singleton_append, hcons, if_pos ⟨hnil, List.cons_ne_nil _ _⟩]
      simp [joined]
    | cons s' texts =>
      have hrest := ih fun x hx => h x (List.mem_cons_of_mem _ hx)
      rw [if_pos ⟨hnil, List.cons_ne_nil _ _⟩] at hrest ⊢
      have hcons (l : List (List Byte)) :
          joined (s :: s' :: l) = s ++ [comma, 0x20] ++ joined (s' :: l) :=
        List.intercalate_cons_cons
      rw [List.cons_append, List.cons_append, hcons, hcons, ← List.cons_append, ← hrest]
      simp only [List.append_assoc]

theorem append_joined {s : List Byte} (h : ∀ s ∈ texts, s ≠ []) (hs : s ≠ []) :
    append (joined texts) s = joined (texts ++ [s]) := by
  rw [← appendBoth_joined h fun x hx => by rwa [List.mem_singleton.mp hx]]
  have hone : joined [s] = s := List.intercalate_singleton
  rw [hone, append, appendBoth]
  by_cases hnil : joined texts = [] <;> simp [hnil, hs]

/-- The loops join the texts. -/
theorem foldl_append_joined (h : ∀ s ∈ texts, s ≠ []) (hmore : ∀ s ∈ more, s ≠ []) :
    more.foldl append (joined texts) = joined (texts ++ more) := by
  induction more generalizing texts with
  | nil => simp
  | cons s more ih =>
    have hs := hmore s List.mem_cons_self
    have hboth : ∀ x ∈ texts ++ [s], x ≠ [] := by
      intro x hx
      rcases List.mem_append.mp hx with hx | hx
      · exact h x hx
      · rwa [List.mem_singleton.mp hx]
    rw [List.foldl_cons, append_joined h hs, ih hboth fun x hx => hmore x
      (List.mem_cons_of_mem _ hx), List.append_assoc, List.singleton_append]

end

section

variable (t : Table) {write : Writer} {w : Val → List Byte × Tree} {r : Val → List ℕ}

theorem pairsLoop_visits (es : List (Val × Val))
    (hwrite : ∀ e ∈ es, Visits (write (some e.1)) (r e.1) (w e.1).1 ∧
      Visits (write (some e.2)) (r e.2) (w e.2).1) (data : List Byte) (ilen : ℕ) :
    Visits (pairsLoop t write es (data, ilen))
      ((es.filter fun e => t.keyed e.1).flatMap fun e => r e.1 ++ r e.2)
      (((es.filter fun e => t.keyed e.1).map fun e => (keyedField w e).text).foldl append data,
        t.lastOf es ilen) := by
  induction es generalizing data ilen with
  | nil => exact Visits.pure _
  | cons e es ih =>
    obtain ⟨k, v⟩ := e
    obtain ⟨hk, hv⟩ := hwrite (k, v) List.mem_cons_self
    have hes := ih fun e he => hwrite e (List.mem_cons_of_mem _ he)
    have hlast : t.lastOf ((k, v) :: es) ilen =
      t.lastOf es (if t.keyed k then ilen else max ilen (number k)) := rfl
    rw [hlast]
    cases hkeyed : t.keyed k with
    | true =>
      let more (key value : List Byte) := pairsLoop t write es (append data (openBracket :: key ++
        closeBracket :: 0x20 :: equals :: 0x20 :: value), ilen)
      have hrun : pairsLoop t write ((k, v) :: es) (data, ilen) = fun seen =>
          (write (some k) seen).bind fun x => (write (some v) x.2).bind fun y =>
            more x.1 y.1 y.2 := by
        funext seen
        rw [pairsLoop, if_pos hkeyed]
        rfl
      have hfilter : ((k, v) :: es).filter (fun e => t.keyed e.1) =
        (k, v) :: es.filter fun e => t.keyed e.1 := List.filter_cons_of_pos hkeyed
      rw [hrun, if_pos rfl, hfilter, List.flatMap_cons, List.append_assoc]
      exact hk.bind (g := fun key seen => (write (some v) seen).bind fun y => more key y.1 y.2)
        (hv.bind (g := more _) (hes _ _))
    | false =>
      have hrun : pairsLoop t write ((k, v) :: es) (data, ilen) =
          pairsLoop t write es (data, max ilen (number k)) := by
        funext seen
        rw [pairsLoop, if_neg (by simp [hkeyed])]
        split
        · next hlt => rw [max_eq_right hlt.le]
        · next hle => rw [max_eq_left (Nat.not_lt.mp hle)]
      have hfilter : ((k, v) :: es).filter (fun e => t.keyed e.1) =
        es.filter fun e => t.keyed e.1 := List.filter_cons_of_neg (by simp [hkeyed])
      rw [hrun, if_neg (by decide), hfilter]
      exact hes _ _

theorem placesLoop_visits (hnil : Visits (write none) [] nilText)
    (hwrite : ∀ e ∈ t.entries, Visits (write (some e.2)) (r e.2) (w e.2).1)
    (places : List ℕ) (idata : List Byte) :
    Visits (placesLoop t write places idata)
      (places.flatMap fun i : ℕ => (place t.entries i).elim [] r)
      ((places.map fun i : ℕ => (placeField w (place t.entries i)).text).foldl append idata) := by
  induction places generalizing idata with
  | nil => exact Visits.pure _
  | cons i places ih =>
    have hvalue : Visits (write (place t.entries i)) ((place t.entries i).elim [] r)
        (placeField w (place t.entries i)).text := by
      cases hv : place t.entries i with
      | none => exact hnil
      | some v =>
        obtain ⟨e, he, rfl⟩ := place_mem hv
        exact hwrite e he
    exact hvalue.bind (g := fun s => placesLoop t write places (append idata s)) (ih _)

/-- Both loops together meet what the entries hold. -/
theorem visited_perm (hr : ∀ n, r (.int n) = []) :
    ((t.kept.flatMap fun e => r e.1 ++ r e.2) ++
      (List.range' 1 t.last).flatMap fun i : ℕ => (place t.entries i).elim [] r).Perm
      (t.entries.flatMap fun e => r e.1 ++ r e.2) := by
  have hplaced (places : List ℕ) :
      (places.flatMap fun i : ℕ => (place t.entries i).elim [] r) =
        (places.filterMap fun i : ℕ => t.entryAt i).flatMap fun e => r e.1 ++ r e.2 := by
    induction places with
    | nil => rfl
    | cons i places ih =>
      rw [List.flatMap_cons, ih, place_eq]
      cases hentry : t.entryAt i with
      | none =>
        simp only [List.filterMap_cons, hentry]
        rfl
      | some e =>
        obtain ⟨_, hkey⟩ := numeric_iff.mp (entryAt_spec hentry).2
        simp only [List.filterMap_cons, hentry, List.flatMap_cons, hkey, hr]
        rfl
  rw [hplaced]
  refine List.perm_append_comm.trans ?_
  rw [← Table.placed, ← List.flatMap_append]
  exact (placed_append_kept_perm t).flatMap_right _

/-- A table is written where all the tables that are met are new. -/
theorem serializeTable_visits {h : Heap} {id : ℕ} (hr : ∀ n, r (.int n) = [])
    (hnil : Visits (write none) [] nilText)
    (hwrite : ∀ e ∈ (h.table id).entries, Visits (write (some e.1)) (r e.1) (w e.1).1 ∧
      Visits (write (some e.2)) (r e.2) (w e.2).1)
    (htext : ∀ f ∈ fieldsOf w (h.table id), f.text ≠ []) :
    Visits (serializeTable write h id)
      (id :: (h.table id).entries.flatMap fun e => r e.1 ++ r e.2)
      (joined ((fieldsOf w (h.table id)).map Field.text)) := by
  set t := h.table id
  have hplaces : ∀ s ∈ (placeFields w t).map Field.text, s ≠ [] := by
    intro s hs
    obtain ⟨f, hf, rfl⟩ := List.mem_map.mp hs
    exact htext f (List.mem_append_left _ hf)
  have hkept : ∀ s ∈ (t.kept.map (keyedField w)).map Field.text, s ≠ [] := by
    intro s hs
    obtain ⟨f, hf, rfl⟩ := List.mem_map.mp hs
    exact htext f (List.mem_append_right _ hf)
  have hpairs := pairsLoop_visits t t.entries hwrite [] 0
  have hplaced := placesLoop_visits (w := w) t hnil (fun e he => (hwrite e he).2)
    (List.range' 1 t.last) []
  have hdata : (t.kept.map fun e => (keyedField w e).text).foldl append [] =
      joined ((t.kept.map (keyedField w)).map Field.text) := by
    rw [List.map_map] at hkept ⊢
    exact foldl_append_joined (List.forall_mem_nil _) hkept
  have hidata : ((List.range' 1 t.last).map fun i : ℕ =>
      (placeField w (place t.entries i)).text).foldl append [] =
      joined ((placeFields w t).map Field.text) := by
    rw [placeFields, List.map_map] at hplaces ⊢
    exact foldl_append_joined (List.forall_mem_nil _) hplaces
  let rest (st : List Byte × ℕ) (seen : List ℕ) :=
    (placesLoop t write (List.range' 1 st.2) [] seen).map fun x => (appendBoth x.1 st.1, x.2)
  have hrun : serializeTable write h id = fun seen => if id ∈ seen then none else
      (pairsLoop t write t.entries ([], 0) (id :: seen)).bind fun x => rest x.1 x.2 := by
    funext seen
    unfold serializeTable
    split
    · rfl
    · refine congrArg _ (funext fun x => ?_)
      exact Option.map_eq_bind.symm
  rw [hrun, fieldsOf, List.map_append, ← appendBoth_joined hplaces hkept, ← hidata, ← hdata]
  have hboth := hpairs.bind (g := rest) (hplaced.map fun idata => appendBoth idata _)
  exact (hboth.perm (visited_perm t hr)).marked id

end

/-- A value is written where no table is met twice, and an error elsewhere. -/
theorem serializeData_visits (h : Heap) {depth : ℕ} {v : Val} (hv : h.height v ≤ depth) :
    Visits (serializeData h depth (some v)) (reachedWithin h depth v)
      (written h depth v).1 := by
  induction depth generalizing v with
  | zero =>
    cases v with
    | table id => exact absurd hv (Nat.not_succ_le_zero _)
    | _ => exact Visits.pure _
  | succ depth ih =>
    cases v with
    | table id =>
      have htable : Visits (serializeTable (serializeData h depth) h id)
          (id :: (h.table id).entries.flatMap fun e =>
            reachedWithin h depth e.1 ++ reachedWithin h depth e.2)
          (joined ((fieldsOf (written h depth) (h.table id)).map Field.text)) := by
        apply serializeTable_visits
        · intro n
          cases depth <;> rfl
        · cases depth <;> exact Visits.pure _
        · exact fun e he => ⟨ih (height_le hv he).1, ih (height_le hv he).2⟩
        · apply forall_fieldsOf
          · decide
          · exact fun e he => (readsAs_written (height_le hv he).2 (Nat.lt_succ_self _)).1.ne_nil
          · exact fun e _ => List.cons_ne_nil _ _
      have hrun : serializeData h (depth + 1) (some (.table id)) = fun seen =>
          (serializeTable (serializeData h depth) h id seen).map fun x =>
            (openBrace :: 0x20 :: (x.1 ++ [0x20, closeBrace]), x.2) := by
        funext seen
        exact Option.map_eq_bind.symm
      rw [hrun]
      exact htable.map fun fields => openBrace :: 0x20 :: (fields ++ [0x20, closeBrace])
    | _ => exact Visits.pure _

section

variable {h : Heap} {v : Val}

theorem serialize_of_unshared (hv : Unshared h v) :
    serialize h v = some (written h (h.height v) v).1 := by
  obtain ⟨seen, hrun, _⟩ :=
    (serializeData_visits h le_rfl).succeeds [] hv (List.disjoint_nil_right _)
  rw [serialize, hrun]
  rfl

theorem serialize_of_shared (hv : ¬Unshared h v) : serialize h v = none := by
  have hrun := (serializeData_visits h le_rfl).fails [] fun hnew => hv hnew.1
  rw [serialize, hrun]
  rfl

theorem restoreData_written (h : Heap) (v : Val) :
    restoreData (written h (h.height v) v).1 = some (some (written h (h.height v) v).2) :=
  returned_of_readsAs fun _ hlevels => readsAs_written le_rfl hlevels

end

/-- All numbers have at most 14 significant digits. -/
inductive Brief : Tree → Prop
  | bool (b : Bool) : Brief (.bool b)
  | int {n : ℤ} : Short n.natAbs → Brief (.int n)
  | str (s : List Byte) : Brief (.str s)
  | table {es : List (Tree × Tree)} :
      (∀ e ∈ es, Brief e.1) → (∀ e ∈ es, Brief e.2) → Brief (.table es)

theorem short_of_lt {n : ℕ} (h : n < 10 ^ 14) : Short n :=
  ⟨n, 0, by rw [Nat.pow_zero, Nat.mul_one], h⟩

theorem forall_assign {P : Tree × Tree → Prop} {es : List (Tree × Tree)} {k : Tree}
    {v : Option Tree} (hes : ∀ e ∈ es, P e) (hv : ∀ x ∈ v, P (k, x)) :
    ∀ e ∈ assign es k v, P e := by
  intro e he
  rcases List.mem_append.mp he with he | he
  · exact hes e (List.mem_filter.mp he).1
  · obtain ⟨x, hx, rfl⟩ := Option.map_eq_some_iff.mp (Option.mem_toList.mp he)
    exact hv x hx

section

variable {w : Val → List Byte × Tree} (hw : ∀ v, Brief (w v).2)

include hw

theorem brief_places (l : List (Option Val)) {n : ℕ} (hn : n + l.length < 10 ^ 14)
    {es : List (Tree × Tree)} (hes : ∀ e ∈ es, Brief e.1 ∧ Brief e.2) :
    ∀ e ∈ ((l.map (placeField w)).foldl Field.apply (n, es)).2, Brief e.1 ∧ Brief e.2 := by
  induction l generalizing n es with
  | nil => exact hes
  | cons v l ih =>
    rw [List.length_cons] at hn
    have hkey : Brief (.int (n + 1 : ℕ)) := Brief.int (short_of_lt (by omega))
    cases v with
    | none => exact ih (by omega) (forall_assign hes fun x hx => absurd hx (Option.not_mem_none x))
    | some v =>
      refine ih (by omega) (forall_assign hes fun x hx => ?_)
      obtain rfl := Option.some.inj hx
      exact ⟨hkey, hw v⟩

theorem brief_kept (l : List (Val × Val)) (n : ℕ) {es : List (Tree × Tree)}
    (hes : ∀ e ∈ es, Brief e.1 ∧ Brief e.2) :
    ∀ e ∈ ((l.map (keyedField w)).foldl Field.apply (n, es)).2, Brief e.1 ∧ Brief e.2 := by
  induction l generalizing es with
  | nil => exact hes
  | cons p l ih =>
    refine ih (forall_assign hes fun x hx => ?_)
    obtain rfl := Option.some.inj hx
    exact ⟨hw p.1, hw p.2⟩

theorem brief_fieldsOf (t : Table) :
    Brief (.table ((fieldsOf w t).foldl Field.apply (0, [])).2) := by
  have hlast : t.last ≤ t.length + 3 := last_le t
  have hlength := t.length_lt
  have hplaces : placeFields w t =
      ((List.range' 1 t.last).map fun i : ℕ => place t.entries i).map (placeField w) := by
    rw [List.map_map]
    rfl
  have hplaced := brief_places hw ((List.range' 1 t.last).map fun i : ℕ => place t.entries i)
    (n := 0) (by rw [List.length_map, List.length_range']; omega) (List.forall_mem_nil _)
  rw [← hplaces] at hplaced
  have hbrief := brief_kept hw t.kept
    ((placeFields w t).foldl Field.apply (0, [])).1 hplaced
  rw [fieldsOf, List.foldl_append]
  exact Brief.table (fun e he => (hbrief e he).1) fun e he => (hbrief e he).2

end

/-- Whatever is read of a text has short numbers. -/
theorem brief_written (h : Heap) (depth : ℕ) (v : Val) : Brief (written h depth v).2 := by
  have hint (n : Exact) : Brief (.int (roundedInt n)) := by
    apply Brief.int
    rw [roundedInt_natAbs]
    exact rounded_short _
  induction depth generalizing v with
  | zero =>
    cases v with
    | bool b => exact Brief.bool b
    | int n => exact hint n
    | str s => exact Brief.str s
    | table id =>
      exact Brief.table (fun e he => absurd he List.not_mem_nil)
        fun e he => absurd he List.not_mem_nil
  | succ depth ih =>
    cases v with
    | bool b => exact Brief.bool b
    | int n => exact hint n
    | str s => exact Brief.str s
    | table id => exact brief_fieldsOf ih (h.table id)

theorem exists_mem_zip {α β : Type*} {l : List α} {m : List β} (hlen : l.length = m.length) {a : α}
    (ha : a ∈ l) : ∃ b ∈ m, (a, b) ∈ l.zip m := by
  obtain ⟨i, hi, rfl⟩ := List.getElem_of_mem ha
  have hmem := List.getElem_mem (l := l.zip m) (n := i) (by rw [List.length_zip]; omega)
  rw [List.getElem_zip] at hmem
  exact ⟨m[i], List.getElem_mem _, hmem⟩

/-- The numbers of a value are those of what equals it. -/
theorem Same.short {h : Heap} {v : Val} {t : Tree} (hsame : Same h v t) (hbrief : Brief t)
    {n : ℤ} (hn : Occurs h v n) : Short n.natAbs := by
  induction hsame with
  | bool b => cases hn
  | int k =>
    cases hn
    cases hbrief
    assumption
  | str s => cases hn
  | table id ps es hperm hlen _ _ ihkey ihvalue =>
    cases hbrief with
    | table hkeys hvalues =>
      cases hn with
      | key he hocc =>
        obtain ⟨e', he', hzip⟩ := exists_mem_zip hlen (hperm.mem_iff.mpr he)
        exact ihkey _ hzip (hkeys e' he') hocc
      | value he hocc =>
        obtain ⟨e', he', hzip⟩ := exists_mem_zip hlen (hperm.mem_iff.mpr he)
        exact ihvalue _ hzip (hvalues e' he') hocc

/-- A key that is not there comes behind the others. -/
theorem assign_new {es : List (Tree × Tree)} {k : Tree} (v : Option Tree)
    (hes : ∀ e ∈ es, sameKey e.1 k = false) :
    assign es k v = es ++ (v.map fun v => (k, v)).toList := by
  rw [assign, List.filter_eq_self.mpr fun e he => by rw [hes e he]; rfl]

section

variable (w : Val → List Byte × Tree)

/-- What is read of an entry. -/
def pairTree (e : Val × Val) : Tree × Tree := ((w e.1).2, (w e.2).2)

variable {w}

theorem foldl_places {t : Table} (hw : ∀ k : Exact, Short k.1.natAbs → (w (.int k)).2 = .int k)
    (n : ℕ) {m : ℕ} (hm : m + n < 10 ^ 14) {es : List (Tree × Tree)}
    (hes : ∀ e ∈ es, ∀ j : ℕ, m < j → sameKey e.1 (.int j) = false) :
    ((List.range' (m + 1) n).map fun i : ℕ => placeField w (place t.entries i)).foldl
        Field.apply (m, es) =
      (m + n, es ++
        ((List.range' (m + 1) n).filterMap fun i : ℕ => t.entryAt i).map (pairTree w)) := by
  induction n generalizing m es with
  | zero => simp
  | succ n ih =>
    have hnew := fun e he => hes e he (m + 1) (Nat.lt_succ_self m)
    have hlater : ∀ e ∈ es, ∀ j : ℕ, m + 1 < j → sameKey e.1 (.int j) = false :=
      fun e he j hj => hes e he j (by omega)
    rw [List.range'_succ, List.map_cons, List.foldl_cons, place_eq]
    cases hentry : t.entryAt (m + 1 : ℕ) with
    | none =>
      have hstep : Field.apply (m, es) (placeField w none) = (m + 1, es) := by
        show (m + 1, assign es (.int (m + 1 : ℕ)) none) = _
        rw [assign_new none hnew]
        simp
      rw [Option.map_none, hstep, ih (by omega) hlater]
      simp only [List.filterMap_cons, hentry, Nat.add_right_comm m 1 n, Nat.add_assoc]
    | some e =>
      obtain ⟨hbound, hkey⟩ := numeric_iff.mp (entryAt_spec hentry).2
      have htree : (w e.1).2 = .int (m + 1 : ℕ) := by
        rw [hkey]
        exact hw _ (short_of_lt (show m + 1 < 10 ^ 14 by omega))
      have hstep : Field.apply (m, es) (placeField w (some e.2)) =
          (m + 1, es ++ [pairTree w e]) := by
        show (m + 1, assign es (.int (m + 1 : ℕ)) (some (w e.2).2)) = _
        rw [assign_new _ hnew, pairTree, htree]
        rfl
      have hmore : ∀ e' ∈ es ++ [pairTree w e], ∀ j : ℕ, m + 1 < j →
          sameKey e'.1 (.int j) = false := by
        intro e' he' j hj
        rcases List.mem_append.mp he' with he' | he'
        · exact hlater e' he' j hj
        · rw [List.mem_singleton.mp he', pairTree, htree, sameKey, beq_eq_false_iff_ne]
          omega
      rw [Option.map_some, hstep, ih (by omega) hmore]
      simp only [List.filterMap_cons, hentry, List.map_cons, List.append_assoc,
        List.singleton_append, Nat.add_right_comm m 1 n, Nat.add_assoc]

theorem foldl_kept (l : List (Val × Val)) (n : ℕ) {es : List (Tree × Tree)}
    (hkeys : (es ++ l.map (pairTree w)).Pairwise fun a b => sameKey a.1 b.1 = false) :
    (l.map (keyedField w)).foldl Field.apply (n, es) = (n, es ++ l.map (pairTree w)) := by
  induction l generalizing es with
  | nil => simp
  | cons e l ih =>
    have hnew : ∀ e' ∈ es, sameKey e'.1 (w e.1).2 = false := fun e' he' =>
      (List.pairwise_append.mp hkeys).2.2 e' he' (pairTree w e) List.mem_cons_self
    have hstep : Field.apply (n, es) (keyedField w e) = (n, es ++ [pairTree w e]) := by
      show (n, assign es (w e.1).2 (some (w e.2).2)) = _
      rw [assign_new _ hnew]
      rfl
    have hgroup : es ++ (e :: l).map (pairTree w) =
        (es ++ [pairTree w e]) ++ l.map (pairTree w) := by
      simp
    rw [hgroup] at hkeys ⊢
    rw [List.map_cons, List.foldl_cons, hstep, ih hkeys]

end

/-- Keys that differ are not taken for one another. -/
theorem sameKey_written {h : Heap} {depth : ℕ} {a b : Val} (hab : a ≠ b)
    (ha : ∀ n, Occurs h a n → Short n.natAbs) (hb : ∀ n, Occurs h b n → Short n.natAbs) :
    sameKey (written h depth a).2 (written h depth b).2 = false := by
  have hkind (id : ℕ) : ∃ es, (written h depth (.table id)).2 = .table es := by
    cases depth with
    | zero => exact ⟨_, rfl⟩
    | succ depth => exact ⟨_, rfl⟩
  have hright (x : Tree) (id : ℕ) : sameKey x (written h depth (.table id)).2 = false := by
    obtain ⟨es, hes⟩ := hkind id
    rw [hes]
    cases x <;> rfl
  cases a with
  | table id =>
    obtain ⟨es, hes⟩ := hkind id
    rw [hes]
    rfl
  | bool x =>
    cases b with
    | table id => exact hright _ id
    | bool y => simpa [sameKey] using hab
    | _ => simp [sameKey]
  | int m =>
    cases b with
    | table id => exact hright _ id
    | int n =>
      rw [written_int, written_int, roundedInt_of_short (ha _ (Occurs.int m)),
        roundedInt_of_short (hb _ (Occurs.int n)), sameKey, beq_eq_false_iff_ne]
      exact fun hmn => hab (congrArg Val.int (Subtype.ext hmn))
    | _ => simp [sameKey]
  | str s =>
    cases b with
    | table id => exact hright _ id
    | str s' => simpa [sameKey] using hab
    | _ => simp [sameKey]

/-- The entries of a table come back where those that differ stay apart. -/
theorem foldl_fieldsOf {h : Heap} (depth : ℕ) (t : Table)
    (hkeys : ∀ e ∈ t.entries, ∀ n, Occurs h e.1 n → Short n.natAbs) :
    ((fieldsOf (written h depth) t).foldl Field.apply (0, [])).2 =
      (t.placed ++ t.kept).map (pairTree (written h depth)) := by
  have hperm := placed_append_kept_perm t
  have hlast := last_le t
  have hlength := t.length_lt
  have hw (k : Exact) (hk : Short k.1.natAbs) : (written h depth (.int k)).2 = .int k := by
    rw [written_int, roundedInt_of_short hk]
  have hplaces : (placeFields (written h depth) t).foldl Field.apply (0, []) =
      (0 + t.last, [] ++ t.placed.map (pairTree (written h depth))) :=
    foldl_places hw t.last (by omega) fun e he => absurd he List.not_mem_nil
  have hapart : ((t.placed ++ t.kept).map (pairTree (written h depth))).Pairwise
      fun a b => sameKey a.1 b.1 = false := by
    have hnodup : ((t.placed ++ t.kept).map Prod.fst).Nodup :=
      (hperm.map Prod.fst).nodup_iff.mpr t.distinct
    rw [List.pairwise_map]
    refine (List.pairwise_map.mp hnodup).imp_of_mem fun ha hb hab => ?_
    exact sameKey_written hab (hkeys _ (hperm.mem_iff.mp ha)) (hkeys _ (hperm.mem_iff.mp hb))
  rw [List.map_append] at hapart
  rw [fieldsOf, List.foldl_append, hplaces, List.nil_append, foldl_kept t.kept _ hapart,
    List.map_append]

/-- A value whose numbers are short comes back. -/
theorem same_written {h : Heap} {depth : ℕ} {v : Val} (hv : h.height v ≤ depth)
    (hshort : ∀ n, Occurs h v n → Short n.natAbs) : Same h v (written h depth v).2 := by
  have hint (n : Exact) (hn : Short n.1.natAbs) : Same h (.int n) (.int (roundedInt n)) := by
    rw [roundedInt_of_short hn]
    exact Same.int n
  induction depth generalizing v with
  | zero =>
    cases v with
    | bool b => exact Same.bool b
    | int n => exact hint n (hshort _ (Occurs.int n))
    | str s => exact Same.str s
    | table id => exact absurd hv (Nat.not_succ_le_zero _)
  | succ depth ih =>
    cases v with
    | bool b => exact Same.bool b
    | int n => exact hint n (hshort _ (Occurs.int n))
    | str s => exact Same.str s
    | table id =>
      have hperm := placed_append_kept_perm (h.table id)
      have hentries := foldl_fieldsOf depth (h.table id) fun e he n hn =>
        hshort n (Occurs.key he hn)
      show Same h (.table id) (.table _)
      rw [hentries]
      have hzip {x : (Val × Val) × (Tree × Tree)}
          (hx : x ∈ ((h.table id).placed ++ (h.table id).kept).zip
            (((h.table id).placed ++ (h.table id).kept).map (pairTree (written h depth)))) :
          x.1 ∈ (h.table id).entries ∧ x.2 = pairTree (written h depth) x.1 := by
        rw [← List.map_prod_left_eq_zip] at hx
        obtain ⟨e, he, rfl⟩ := List.mem_map.mp hx
        exact ⟨hperm.mem_iff.mp he, rfl⟩
      refine Same.table id _ _ hperm (List.length_map _).symm (fun x hx => ?_) fun x hx => ?_
      · obtain ⟨he, htree⟩ := hzip hx
        rw [htree]
        exact ih (height_le hv he).1 fun n hn => hshort n (Occurs.key he hn)
      · obtain ⟨he, htree⟩ := hzip hx
        rw [htree]
        exact ih (height_le hv he).2 fun n hn => hshort n (Occurs.value he hn)

/-- A value comes back if no table is met twice and no number has more than 14
significant digits. -/
theorem round_trip_iff (h : Heap) (v : Val) :
    RoundTrips h v ↔ Unshared h v ∧ ∀ n, Occurs h v n → Short n.natAbs := by
  constructor
  · rintro ⟨str, t, hserialize, hrestore, hsame⟩
    have hv : Unshared h v := by
      by_contra hshared
      rw [serialize_of_shared hshared] at hserialize
      cases hserialize
    rw [serialize_of_unshared hv, Option.some.injEq] at hserialize
    rw [← hserialize, restoreData_written, Option.some.injEq, Option.some.injEq] at hrestore
    exact ⟨hv, fun n hn => hsame.short (hrestore ▸ brief_written h _ v) hn⟩
  · rintro ⟨hv, hshort⟩
    exact ⟨_, _, serialize_of_unshared hv, restoreData_written h v, same_written le_rfl hshort⟩

def emptyTable : Table where
  entries := []
  distinct := List.nodup_nil
  length := 0
  length_lt := Nat.two_pow_pos 31
  border := by decide

/-- A table that holds the second one at two places. -/
def pairTable : Table where
  entries := [(.int ⟨1, by decide⟩, .table 1), (.int ⟨2, by decide⟩, .table 1)]
  distinct := by decide
  length := 2
  length_lt := by decide
  border := by decide

def twice : Heap where
  table := fun id => if id = 0 then pairTable else emptyTable
  rank := fun id => if id = 0 then 1 else 0
  acyclic := by
    intro id e he j hj
    by_cases hid : id = 0
    · subst hid
      rw [if_pos rfl] at he ⊢
      have hone : j = 1 := by
        rcases List.mem_pair.mp he with rfl | rfl
        all_goals
          rcases hj with hj | hj
          · cases hj
          · exact (Val.table.inj hj).symm
      rw [hone]
      decide
    · rw [if_neg hid] at he
      exact absurd he List.not_mem_nil

/-- A table without a cycle is taken for a recursion. -/
theorem twice_fails : serialize twice (.table 0) = none ∧ ¬RoundTrips twice (.table 0) := by
  have hnone : serialize twice (.table 0) = none := by decide
  refine ⟨hnone, ?_⟩
  rintro ⟨str, t, hserialize, _⟩
  rw [hnone] at hserialize
  cases hserialize

end Iot7688.LuciSerialize
