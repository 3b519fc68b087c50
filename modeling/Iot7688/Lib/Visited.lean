import Mathlib.Data.List.Perm.Basic
import Mathlib.Data.List.Nodup

/-!
Computations that keep a list of what they have seen and fail at the second visit of
anything. What one visits does not depend on the order, so it is a list up to
permutation, and sequences of such computations visit the concatenation.
-/
namespace Iot7688.Lib

variable {ι α β : Type*} {l m : List ι} {a : α} {b : β}

/-- The computation has this result where all it visits is new, and fails elsewhere. -/
structure Visits (f : List ι → Option (α × List ι)) (l : List ι) (a : α) : Prop where
  succeeds : ∀ seen, l.Nodup → l.Disjoint seen →
    ∃ seen', f seen = some (a, seen') ∧ ∀ x, x ∈ seen' ↔ x ∈ l ∨ x ∈ seen
  fails : ∀ seen, ¬(l.Nodup ∧ l.Disjoint seen) → f seen = none

namespace Visits

theorem pure (a : α) : Visits (fun seen : List ι => some (a, seen)) [] a where
  succeeds := fun seen _ _ => ⟨seen, rfl, fun _ => by simp⟩
  fails := fun seen h => absurd ⟨List.nodup_nil, List.disjoint_nil_left seen⟩ h

/-- One computation and then, with its result, another. -/
theorem bind {f : List ι → Option (α × List ι)} {g : α → List ι → Option (β × List ι)}
    (hf : Visits f l a) (hg : Visits (g a) m b) :
    Visits (fun seen => (f seen).bind fun r => g r.1 r.2) (l ++ m) b where
  succeeds := by
    intro seen hnodup hdisjoint
    rw [List.nodup_append'] at hnodup
    obtain ⟨hl, hm, hlm⟩ := hnodup
    rw [List.disjoint_append_left] at hdisjoint
    obtain ⟨seen1, hrun1, hseen1⟩ := hf.succeeds seen hl hdisjoint.1
    have hnew : m.Disjoint seen1 := by
      intro x hx hx1
      rcases (hseen1 x).mp hx1 with h | h
      · exact hlm h hx
      · exact hdisjoint.2 hx h
    obtain ⟨seen2, hrun2, hseen2⟩ := hg.succeeds seen1 hm hnew
    refine ⟨seen2, by rw [hrun1]; exact hrun2, fun x => ?_⟩
    rw [hseen2, hseen1, List.mem_append]
    tauto
  fails := by
    intro seen hnot
    by_cases hfirst : l.Nodup ∧ l.Disjoint seen
    · obtain ⟨seen1, hrun1, hseen1⟩ := hf.succeeds seen hfirst.1 hfirst.2
      show (f seen).bind (fun r => g r.1 r.2) = none
      rw [hrun1, Option.bind_some]
      apply hg.fails
      rintro ⟨hm, hnew⟩
      refine hnot ⟨List.nodup_append'.mpr ⟨hfirst.1, hm, ?_⟩, ?_⟩
      · intro x hl hx
        exact hnew hx ((hseen1 x).mpr (Or.inl hl))
      · rw [List.disjoint_append_left]
        exact ⟨hfirst.2, fun x hx h => hnew hx ((hseen1 x).mpr (Or.inr h))⟩
    · show (f seen).bind (fun r => g r.1 r.2) = none
      rw [hf.fails seen hfirst]
      rfl

theorem map {f : List ι → Option (α × List ι)} (hf : Visits f l a) (g : α → β) :
    Visits (fun seen => (f seen).map fun r => (g r.1, r.2)) l (g a) where
  succeeds := by
    intro seen hnodup hdisjoint
    obtain ⟨seen', hrun, hseen'⟩ := hf.succeeds seen hnodup hdisjoint
    exact ⟨seen', by rw [hrun]; rfl, hseen'⟩
  fails := by
    intro seen hnot
    show (f seen).map (fun r => (g r.1, r.2)) = none
    rw [hf.fails seen hnot]
    rfl

theorem perm {f : List ι → Option (α × List ι)} (hf : Visits f l a) (h : l.Perm m) :
    Visits f m a where
  succeeds := by
    intro seen hnodup hdisjoint
    obtain ⟨seen', hrun, hseen'⟩ := hf.succeeds seen (h.nodup_iff.mpr hnodup)
      fun x hx => hdisjoint (h.mem_iff.mp hx)
    exact ⟨seen', hrun, fun x => by rw [hseen', h.mem_iff]⟩
  fails := by
    intro seen hnot
    apply hf.fails
    rintro ⟨hnodup, hdisjoint⟩
    exact hnot ⟨h.nodup_iff.mp hnodup, fun x hx => hdisjoint (h.mem_iff.mpr hx)⟩

/-- A node that is marked before the rest is visited. -/
theorem marked [DecidableEq ι] (i : ι) {f : List ι → Option (α × List ι)} (hf : Visits f l a) :
    Visits (fun seen => if i ∈ seen then none else f (i :: seen)) (i :: l) a where
  succeeds := by
    intro seen hnodup hdisjoint
    obtain ⟨hi, hl⟩ := List.nodup_cons.mp hnodup
    rw [List.disjoint_cons_left] at hdisjoint
    have hnew : l.Disjoint (i :: seen) := by
      intro x hx hseen
      rcases List.mem_cons.mp hseen with rfl | h
      · exact hi hx
      · exact hdisjoint.2 hx h
    obtain ⟨seen', hrun, hseen'⟩ := hf.succeeds (i :: seen) hl hnew
    refine ⟨seen', by rw [if_neg hdisjoint.1]; exact hrun, fun x => ?_⟩
    rw [hseen', List.mem_cons, List.mem_cons]
    tauto
  fails := by
    intro seen hnot
    by_cases hi : i ∈ seen
    · exact if_pos hi
    · show (if i ∈ seen then none else f (i :: seen)) = none
      rw [if_neg hi]
      apply hf.fails
      rintro ⟨hl, hnew⟩
      refine hnot ⟨List.nodup_cons.mpr ⟨fun hx => hnew hx List.mem_cons_self, hl⟩, ?_⟩
      rw [List.disjoint_cons_left]
      exact ⟨hi, fun x hx h => hnew hx (List.mem_cons_of_mem _ h)⟩

end Visits

end Iot7688.Lib
