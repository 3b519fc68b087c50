import Mathlib.Data.Nat.Notation

/-!
A procedure that calls itself again when an attempt fails. An attempt gives a result or a
state to try again from; with no fuel left there is no result. The result is that of the
first attempt that does not fail. If each failure lowers a measure, fuel above the measure
is enough, and more of it changes nothing.
-/
namespace Iot7688.Lib

variable {σ α : Type}

def attempts (attempt : σ → Option α × σ) : ℕ → σ → Option α × σ
  | 0, s => (none, s)
  | fuel + 1, s =>
      match (attempt s).1 with
      | some a => (some a, (attempt s).2)
      | none => attempts attempt fuel (attempt s).2

variable {attempt : σ → Option α × σ}

theorem attempts_done {s : σ} {a : α} (h : (attempt s).1 = some a) (fuel : ℕ) :
    attempts attempt (fuel + 1) s = (some a, (attempt s).2) := by
  simp only [attempts, h]

theorem attempts_again {s : σ} (h : (attempt s).1 = none) (fuel : ℕ) :
    attempts attempt (fuel + 1) s = attempts attempt fuel (attempt s).2 := by
  simp only [attempts, h]

/-- A result is the result of one attempt. -/
theorem attempts_result {fuel : ℕ} {s t : σ} {a : α} (h : attempts attempt fuel s = (some a, t)) :
    ∃ u, attempt u = (some a, t) := by
  induction fuel generalizing s with
  | zero => cases h
  | succ fuel ih =>
    cases hres : (attempt s).1 with
    | some b =>
      rw [attempts_done hres] at h
      exact ⟨s, (Prod.ext hres rfl : attempt s = (some b, (attempt s).2)).trans h⟩
    | none =>
      rw [attempts_again hres] at h
      exact ih h

/-- The attempts end with the first that does not fail, when the states they are made from
are numbered. -/
theorem attempts_iff (attempt : σ → Option α × σ) (visit : ℕ → σ) (a : α) (t : σ)
    (hvisit : ∀ i, (attempt (visit i)).1 = none → (attempt (visit i)).2 = visit (i + 1)) :
    (∃ fuel, attempts attempt fuel (visit 0) = (some a, t)) ↔
      ∃ n, attempt (visit n) = (some a, t) ∧ ∀ j, j < n → (attempt (visit j)).1 = none := by
  constructor
  · intro ⟨fuel, h⟩
    have hrun (fuel i : ℕ) (hrun : attempts attempt fuel (visit i) = (some a, t))
        (hfirst : ∀ j, j < i → (attempt (visit j)).1 = none) :
        ∃ n, attempt (visit n) = (some a, t) ∧ ∀ j, j < n → (attempt (visit j)).1 = none := by
      induction fuel generalizing i with
      | zero => cases hrun
      | succ fuel ih =>
        cases hres : (attempt (visit i)).1 with
        | some b =>
          rw [attempts_done hres] at hrun
          exact ⟨i, (Prod.ext hres rfl : attempt (visit i) = (some b, _)).trans hrun, hfirst⟩
        | none =>
          rw [attempts_again hres, hvisit i hres] at hrun
          refine ih (i + 1) hrun fun j hj => ?_
          rcases Nat.lt_succ_iff_lt_or_eq.mp hj with hlt | rfl
          · exact hfirst j hlt
          · exact hres
    exact hrun fuel 0 h fun j hj => absurd hj (Nat.not_lt_zero j)
  · intro ⟨n, hdone, hfirst⟩
    have hrun (k i : ℕ) (hi : i + k = n) :
        attempts attempt (k + 1) (visit i) = (some a, t) := by
      induction k generalizing i with
      | zero =>
        obtain rfl : i = n := hi
        rw [attempts_done (congrArg Prod.fst hdone), hdone]
      | succ k ih =>
        have hres := hfirst i (by omega)
        rw [attempts_again hres, hvisit i hres]
        exact ih (i + 1) (by omega)
    exact ⟨n + 1, hrun n 0 (Nat.zero_add n)⟩

/-- Each failure leads to a state with a smaller measure, so the attempts end, and what holds
of an attempt that succeeds and is carried over a failed one holds of the whole. -/
theorem attempts_ends (measure : σ → ℕ) {P : σ → Prop} {R : σ → α → σ → Prop}
    (hdone : ∀ s a, P s → (attempt s).1 = some a → R s a (attempt s).2)
    (hagain : ∀ s, P s → (attempt s).1 = none → P (attempt s).2 ∧
      measure (attempt s).2 < measure s ∧ ∀ a t, R (attempt s).2 a t → R s a t)
    {s : σ} (h : P s) :
    ∃ a t, R s a t ∧ ∀ fuel, measure s < fuel → attempts attempt fuel s = (some a, t) := by
  induction hm : measure s using Nat.strongRecOn generalizing s with
  | ind m ih =>
    cases hres : (attempt s).1 with
    | some a =>
      refine ⟨a, _, hdone s a h hres, fun fuel hfuel => ?_⟩
      obtain ⟨k, rfl⟩ := Nat.exists_eq_add_of_le' (show 1 ≤ fuel by omega)
      exact attempts_done hres k
    | none =>
      obtain ⟨hnext, hlt, hcarry⟩ := hagain s h hres
      obtain ⟨a, t, hR, hrun⟩ := ih (measure (attempt s).2) (hm ▸ hlt) hnext rfl
      refine ⟨a, t, hcarry a t hR, fun fuel hfuel => ?_⟩
      obtain ⟨k, rfl⟩ := Nat.exists_eq_add_of_le' (show 1 ≤ fuel by omega)
      rw [attempts_again hres]
      exact hrun k (by omega)

end Iot7688.Lib
