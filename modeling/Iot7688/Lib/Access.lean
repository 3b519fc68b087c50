import Mathlib.Data.List.Basic

/-!
The memory accesses of a program, each a run of bytes of a region. An access of no bytes
touches nothing. A loop over consecutive blocks stays within its region when its last block
does.
-/
namespace Iot7688.Lib

structure Access (ρ : Type) where
  region : ρ
  offset : ℕ
  count : ℕ

variable {ρ : Type} (size : ρ → ℕ)

def Access.Within (a : Access ρ) : Prop := a.count = 0 ∨ a.offset + a.count ≤ size a.region

def AllWithin (l : List (Access ρ)) : Prop := ∀ a ∈ l, a.Within size

instance (a : Access ρ) : Decidable (a.Within size) :=
  inferInstanceAs (Decidable (a.count = 0 ∨ a.offset + a.count ≤ size a.region))

instance (l : List (Access ρ)) : Decidable (AllWithin size l) :=
  inferInstanceAs (Decidable (∀ a ∈ l, a.Within size))

/-- The accesses of a loop over k blocks of n bytes. -/
def blockAccesses (r : ρ) (offset n k : ℕ) : List (Access ρ) :=
  (List.range k).map fun i => ⟨r, offset + n * i, n⟩

variable {size}

theorem within_iff {r : ρ} {offset count : ℕ} :
    Access.Within size ⟨r, offset, count⟩ ↔ count = 0 ∨ offset + count ≤ size r := Iff.rfl

@[simp] theorem allWithin_nil : AllWithin size ([] : List (Access ρ)) := List.forall_mem_nil _

@[simp] theorem allWithin_cons {a : Access ρ} {l : List (Access ρ)} :
    AllWithin size (a :: l) ↔ a.Within size ∧ AllWithin size l := List.forall_mem_cons

@[simp] theorem allWithin_append {l l' : List (Access ρ)} :
    AllWithin size (l ++ l') ↔ AllWithin size l ∧ AllWithin size l' := List.forall_mem_append

theorem allWithin_flatMap {β : Type} {f : β → List (Access ρ)} {l : List β} :
    AllWithin size (l.flatMap f) ↔ ∀ b ∈ l, AllWithin size (f b) := by
  unfold AllWithin
  simp only [List.mem_flatMap]
  exact ⟨fun h b hb a ha => h a ⟨b, hb, ha⟩, fun h a ⟨b, hb, ha⟩ => h b hb a ha⟩

/-- The blocks lie one behind the other up to the end of the last one. -/
theorem blockAccesses_within {r : ρ} {offset n k : ℕ} (h : offset + n * k ≤ size r) :
    AllWithin size (blockAccesses r offset n k) := by
  intro a ha
  obtain ⟨i, hi, rfl⟩ := List.mem_map.mp ha
  have hle : n * (i + 1) ≤ n * k := Nat.mul_le_mul_left n (List.mem_range.mp hi)
  rw [Nat.mul_succ] at hle
  exact Or.inr (by dsimp only; omega)

end Iot7688.Lib
