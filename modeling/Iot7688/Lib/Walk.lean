import Mathlib.Data.Finset.Card

/-!
Walks of a partial step function: the places that are visited until the step stops.
A walk is determined by its start and visits no place twice, so a walk that stays in
a finite set is bounded by its size.
-/
namespace Iot7688.Lib

variable {α : Type*}

/-- The places visited from the given one until the step has no next place. -/
inductive Walk (step : α → Option α) : α → List α → Prop
  | stop {a : α} : step a = none → Walk step a []
  | next {a b : α} {as : List α} : step a = some b → Walk step b as → Walk step a (a :: as)

namespace Walk

variable {step : α → Option α} {a b : α} {as bs : List α}

theorem unique (ha : Walk step a as) (hb : Walk step a bs) : as = bs := by
  induction ha generalizing bs with
  | stop hstop =>
    cases hb with
    | stop => rfl
    | next hnext => rw [hstop] at hnext; cases hnext
  | next hnext _ ih =>
    cases hb with
    | stop hstop => rw [hstop] at hnext; cases hnext
    | next hnext' hrest =>
      rw [hnext] at hnext'
      obtain rfl := Option.some.inj hnext'
      rw [ih hrest]

/-- The walk from a place that is visited is the rest of the walk. -/
theorem from_mem (h : Walk step a as) (hb : b ∈ as) :
    ∃ cs, Walk step b (b :: cs) ∧ b :: cs <:+ as := by
  induction h with
  | stop => cases hb
  | next hnext hrest ih =>
    rcases List.mem_cons.mp hb with rfl | hmem
    · exact ⟨_, Walk.next hnext hrest, List.suffix_refl _⟩
    · obtain ⟨cs, hwalk, hsuffix⟩ := ih hmem
      exact ⟨cs, hwalk, hsuffix.trans (List.suffix_cons _ _)⟩

theorem step_of_mem (h : Walk step a as) (hb : b ∈ as) : (step b).isSome := by
  obtain ⟨cs, hwalk, _⟩ := h.from_mem hb
  cases hwalk with
  | next hnext _ => rw [hnext]; rfl

theorem nodup (h : Walk step a as) : as.Nodup := by
  induction h with
  | stop => exact List.nodup_nil
  | next hnext hrest ih =>
    refine List.nodup_cons.mpr ⟨fun hmem => ?_, ih⟩
    obtain ⟨cs, hwalk, hsuffix⟩ := hrest.from_mem hmem
    have heq := hwalk.unique (Walk.next hnext hrest)
    have hlen := hsuffix.length_le
    rw [heq, List.length_cons] at hlen
    omega

theorem length_le {n : ℕ} {step : ℕ → Option ℕ} {a : ℕ} {as : List ℕ} (h : Walk step a as)
    (hn : ∀ b ∈ as, b < n) : as.length ≤ n := by
  rw [← List.toFinset_card_of_nodup h.nodup, ← Finset.card_range n]
  exact Finset.card_le_card fun b hb => Finset.mem_range.mpr (hn b (List.mem_toFinset.mp hb))

end Walk
end Iot7688.Lib
