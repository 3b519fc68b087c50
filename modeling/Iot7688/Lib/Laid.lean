import Mathlib.Data.List.Basic
import Mathlib.Algebra.Order.Ring.Nat

/-!
Records laid out at multiples of a unit, with the same filling everywhere else. Where no
record begins with the filling and none is the start of another one, the records can be
told from the whole.
-/
namespace Iot7688.Lib

variable {α : Type*} (fill : α) (unit : ℕ) (Ok : List α → Prop)

inductive Laid : ℕ → List α → List (List α) → Prop
  | rest {off : ℕ} {bytes : List α} : (∀ b ∈ bytes, b = fill) → Laid off bytes []
  | record {off : ℕ} {gap record bytes : List α} {records : List (List α)} :
      (∀ b ∈ gap, b = fill) → unit ∣ off + gap.length → Ok record →
      Laid (off + gap.length + record.length) bytes records →
      Laid off (gap ++ (record ++ bytes)) (record :: records)

/-- A record shows where it begins and where it ends. -/
structure Delimited : Prop where
  head : ∀ record, Ok record → ∃ b rest, record = b :: rest ∧ b ≠ fill
  ends : ∀ {record record' bytes bytes' : List α}, Ok record → Ok record' →
    record ++ bytes = record' ++ bytes' → record = record'

variable {fill unit Ok} {off : ℕ} {bytes bytes' : List α} {records records' : List (List α)}

theorem Laid.fill_append {gap : List α} (hgap : ∀ b ∈ gap, b = fill)
    (h : Laid fill unit Ok (off + gap.length) bytes records) :
    Laid fill unit Ok off (gap ++ bytes) records := by
  cases h with
  | rest hrest =>
    refine .rest fun b hb => ?_
    rcases List.mem_append.mp hb with hb | hb
    · exact hgap b hb
    · exact hrest b hb
  | @record _ gap' record bytes records hfill hunit hok hrest =>
    rw [← List.append_assoc]
    refine .record (fun b hb => ?_) ?_ hok ?_
    · rcases List.mem_append.mp hb with hb | hb
      · exact hgap b hb
      · exact hfill b hb
    · rwa [List.length_append, ← Nat.add_assoc]
    · rwa [List.length_append, ← Nat.add_assoc]

theorem Laid.append (h : Laid fill unit Ok off bytes records)
    (h' : Laid fill unit Ok (off + bytes.length) bytes' records') :
    Laid fill unit Ok off (bytes ++ bytes') (records ++ records') := by
  induction h with
  | rest hrest => exact h'.fill_append hrest
  | @record off gap record bytes records hfill hunit hok _ ih =>
    rw [List.append_assoc, List.append_assoc]
    refine .record hfill hunit hok (ih ?_)
    rw [List.length_append, List.length_append, ← Nat.add_assoc, ← Nat.add_assoc] at h'
    exact h'

/-- One more record, and the filling behind it. -/
theorem Laid.concat (h : Laid fill unit Ok off bytes records) {record gap : List α}
    (hunit : unit ∣ off + bytes.length) (hok : Ok record) (hgap : ∀ b ∈ gap, b = fill) :
    Laid fill unit Ok off (bytes ++ (record ++ gap)) (records ++ [record]) := by
  have hone : Laid fill unit Ok (off + bytes.length) ([] ++ (record ++ gap)) [record] :=
    .record (fun b hb => (List.not_mem_nil hb).elim) hunit hok (.rest hgap)
  exact h.append hone

/-- The filling in front of the first record. -/
theorem takeWhile_gap [DecidableEq α] {gap record : List α} (hgap : ∀ b ∈ gap, b = fill)
    (hrecord : ∃ b rest, record = b :: rest ∧ b ≠ fill) :
    (gap ++ (record ++ bytes)).takeWhile (· = fill) = gap := by
  obtain ⟨b, rest, rfl, hb⟩ := hrecord
  rw [List.takeWhile_append_of_pos fun c hc => decide_eq_true (hgap c hc), List.cons_append,
    List.takeWhile_cons_of_neg (by simpa using hb), List.append_nil]

theorem Laid.unique (hdel : Delimited fill Ok) (h : Laid fill unit Ok off bytes records)
    (h' : Laid fill unit Ok off bytes records') : records = records' := by
  classical
  have hfill : ∀ {off bytes records}, Laid fill unit Ok off bytes records →
      (∀ b ∈ bytes, b = fill) → records = [] := by
    intro off bytes records h hall
    cases h with
    | rest _ => rfl
    | record _ _ hok _ =>
      obtain ⟨b, rest, rfl, hb⟩ := hdel.head _ hok
      exact absurd (hall b (by simp)) hb
  induction h generalizing records' with
  | rest hrest => exact (hfill h' hrest).symm
  | @record off gap record bytes records hgap hunit hok hrest ih =>
    generalize hwhole : gap ++ (record ++ bytes) = whole at h'
    cases h' with
    | rest hall =>
      exact hfill (.record hgap hunit hok hrest) (by rwa [hwhole])
    | @record _ gap' record' bytes' records' hgap' _ hok' hrest' =>
      obtain rfl : gap = gap' := by
        rw [← takeWhile_gap hgap (hdel.head _ hok), hwhole, takeWhile_gap hgap' (hdel.head _ hok')]
      have hrecords := List.append_cancel_left hwhole
      obtain rfl := hdel.ends hok hok' hrecords
      obtain rfl := List.append_cancel_left hrecords
      rw [ih hrest']

end Iot7688.Lib
