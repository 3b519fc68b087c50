import Mathlib.Data.Nat.Notation
import Mathlib.Logic.Relation

/-!
Runs of a step relation and the invariant rule for them, logs in which every entry is
justified by the entries before it, contracts of the steps of a run, and loops over the
numbers below a bound.
-/
namespace Iot7688.Lib

variable {σ : Type*} {step : σ → σ → Prop} {P : σ → Prop}

/-- A property that every step keeps holds along every run. -/
theorem run_preserves (hstep : ∀ s t, P s → step s t → P t) {s t : σ}
    (hrun : Relation.ReflTransGen step s t) (h : P s) : P t := by
  induction hrun with
  | refl => exact h
  | tail _ hst ih => exact hstep _ _ ih hst

/-- Every entry of the log is justified by the entries before it. -/
def Justified {α : Type*} (R : List α → α → Prop) (log : List α) : Prop :=
  ∀ before a after, log = before ++ a :: after → R before a

section

variable {α : Type*} {R : List α → α → Prop} {log : List α}

theorem justified_nil : Justified R [] := by
  intro before a after h
  have hlen := congrArg List.length h
  simp at hlen

theorem Justified.snoc (h : Justified R log) {a : α} (ha : R log a) : Justified R (log ++ [a]) := by
  intro before b after heq
  rcases List.eq_nil_or_concat after with rfl | ⟨after', c, rfl⟩
  · obtain ⟨rfl, hb⟩ := List.append_inj' heq rfl
    obtain rfl := List.singleton_inj.mp hb
    exact ha
  · rw [List.concat_eq_append, ← List.cons_append, ← List.append_assoc] at heq
    exact h before b after' (List.append_inj_left' heq rfl)

theorem Justified.mem (h : Justified R log) {a : α} (ha : a ∈ log) : ∃ before, R before a := by
  obtain ⟨before, after, heq⟩ := List.append_of_mem ha
  exact ⟨before, h before a after heq⟩

end

section

variable {ι : Type*} {next : σ → ι → σ} {inv : σ → Prop} {good post : σ → ι → Prop}

/-- A property of a step and the state it starts from holds of every step of a run. -/
def Every (next : σ → ι → σ) (R : σ → ι → Prop) : σ → List ι → Prop
  | _, [] => True
  | s, i :: is => R s i ∧ Every next R (next s i) is

theorem every_append {R : σ → ι → Prop} {s : σ} {is js : List ι} :
    Every next R s (is ++ js) ↔ Every next R s is ∧ Every next R (is.foldl next s) js := by
  induction is generalizing s with
  | nil => exact ⟨fun h => ⟨trivial, h⟩, fun h => h.2⟩
  | cons i is ih =>
    rw [List.cons_append, Every, Every, ih, and_assoc]
    rfl

theorem every_congr {R R' : σ → ι → Prop} (h : ∀ s i, R s i ↔ R' s i) (is : List ι) (s : σ) :
    Every next R s is ↔ Every next R' s is := by
  induction is generalizing s with
  | nil => exact Iff.rfl
  | cons i is ih =>
    unfold Every
    rw [h, ih]

theorem every_and {R R' : σ → ι → Prop} (is : List ι) (s : σ) :
    Every next (fun s i => R s i ∧ R' s i) s is ↔ Every next R s is ∧ Every next R' s is := by
  induction is generalizing s with
  | nil => exact ⟨fun _ => ⟨trivial, trivial⟩, fun _ => trivial⟩
  | cons i is ih =>
    unfold Every
    rw [ih, and_and_and_comm]

/-- A property that an invariant of all steps gives holds of every step of a run. -/
theorem every_of_inv {R : σ → ι → Prop} (hkeep : ∀ s i, inv s → inv (next s i))
    (hR : ∀ s i, inv s → R s i) (is : List ι) {s : σ} (h : inv s) : Every next R s is := by
  induction is generalizing s with
  | nil => trivial
  | cons i is ih => exact ⟨hR s i h, ih (hkeep s i h)⟩

/-- While good steps keep an invariant under which they meet the contract, the runs of
good steps meet it. -/
theorem every_of_good (hkeep : ∀ s i, inv s → good s i → inv (next s i))
    (hpost : ∀ s i, inv s → good s i → post s i) (is : List ι) {s : σ} (h : inv s)
    (hgood : Every next good s is) : Every next post s is := by
  induction is generalizing s with
  | nil => trivial
  | cons i is ih =>
    exact ⟨hpost s i h hgood.1, ih (hkeep s i h hgood.1) hgood.2⟩

/-- While good steps keep an invariant under which they are the ones that meet the
contract, the runs of good steps are the runs that meet it. -/
theorem every_iff (hkeep : ∀ s i, inv s → good s i → inv (next s i))
    (hiff : ∀ s i, inv s → (post s i ↔ good s i)) (is : List ι) {s : σ} (h : inv s) :
    Every next post s is ↔ Every next good s is := by
  induction is generalizing s with
  | nil => exact Iff.rfl
  | cons i is ih =>
    unfold Every
    rw [hiff s i h]
    exact and_congr_right fun hgood => ih (hkeep s i h hgood)

/-- An invariant of the good steps holds behind a run of good steps. -/
theorem inv_foldl (hkeep : ∀ s i, inv s → good s i → inv (next s i)) (is : List ι) {s : σ}
    (h : inv s) (hgood : Every next good s is) : inv (is.foldl next s) := by
  induction is generalizing s with
  | nil => exact h
  | cons i is ih => exact ih (hkeep s i h hgood.1) hgood.2

end

/-- What a loop over the numbers below `n` keeps. -/
theorem foldl_range {β : Type*} {f : β → ℕ → β} {b : β} {n : ℕ} (P : ℕ → β → Prop) (h : P 0 b)
    (hstep : ∀ k < n, ∀ x, P k x → P (k + 1) (f x k)) : P n ((List.range n).foldl f b) := by
  induction n with
  | zero => exact h
  | succ n ih =>
    rw [List.range_succ, List.foldl_append]
    exact hstep n (Nat.lt_succ_self n) _ (ih fun k hk => hstep k (Nat.lt_succ_of_lt hk))

end Iot7688.Lib
