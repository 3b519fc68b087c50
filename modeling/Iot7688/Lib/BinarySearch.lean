import Mathlib.Order.Lattice
import Mathlib.Tactic.Common

/-!
Binary search between two bounds that both belong to the range. The search is given
fuel; as much as the range has places, and one more, is enough.
-/
namespace Iot7688.Lib

variable {α : Type*} [LinearOrder α]

def binarySearch (key : ℕ → α) (x : α) : ℕ → ℕ → ℕ → Option (Option ℕ)
  | 0, _, _ => none
  | fuel + 1, l, r =>
      if r < l then some none
      else
        let m := l + (r - l) / 2
        if key m = x then some (some m)
        else if x < key m then
          if m = 0 then some none else binarySearch key x fuel l (m - 1)
        else binarySearch key x fuel (m + 1) r

variable {key : ℕ → α} {x : α}

/-- A place that is found is in the range and has the key. -/
theorem binarySearch_sound {fuel l r m : ℕ} (h : binarySearch key x fuel l r = some (some m)) :
    l ≤ m ∧ m ≤ r ∧ key m = x := by
  induction fuel generalizing l r with
  | zero => exact absurd h (by simp [binarySearch])
  | succ fuel ih =>
    unfold binarySearch at h
    dsimp only at h
    split at h
    · exact absurd h (by simp)
    · rename_i hle
      split at h
      · rename_i hkey
        obtain rfl := Option.some.inj (Option.some.inj h)
        exact ⟨by omega, by omega, hkey⟩
      · split at h
        · split at h
          · exact absurd h (by simp)
          · obtain ⟨hl, hr, hkey⟩ := ih h
            exact ⟨hl, by omega, hkey⟩
        · obtain ⟨hl, hr, hkey⟩ := ih h
          exact ⟨by omega, hr, hkey⟩

/-- In a sorted range every place with the key would have been found. -/
theorem binarySearch_complete {fuel l r : ℕ}
    (hsorted : ∀ i j, l ≤ i → i ≤ j → j ≤ r → key i ≤ key j)
    (h : binarySearch key x fuel l r = some none) {i : ℕ} (hl : l ≤ i) (hr : i ≤ r) :
    key i ≠ x := by
  induction fuel generalizing l r with
  | zero => exact absurd h (by simp [binarySearch])
  | succ fuel ih =>
    unfold binarySearch at h
    dsimp only at h
    split at h
    · omega
    · set m := l + (r - l) / 2 with hm
      split at h
      · exact absurd h (by simp)
      · rename_i hne
        rintro rfl
        split at h
        · rename_i hlt
          have him : i < m := by
            by_contra hge
            exact absurd (hsorted m i (by omega) (by omega) hr) (not_le.mpr hlt)
          split at h
          · omega
          · exact ih (fun a b ha hab hb => hsorted a b ha hab (by omega)) h hl (by omega) rfl
        · rename_i hge
          have him : m < i := by
            by_contra hle
            have hkey := hsorted i m hl (by omega) (by omega)
            exact hne (le_antisymm (not_lt.mp hge) hkey)
          exact ih (fun a b ha hab hb => hsorted a b (by omega) hab hb) h (by omega) hr rfl

theorem binarySearch_total (key : ℕ → α) (x : α) {fuel l r : ℕ} (hlr : l ≤ r + 1)
    (h : r + 1 < fuel + l) :
    ∃ found, binarySearch key x fuel l r = some found := by
  induction fuel generalizing l r with
  | zero => omega
  | succ fuel ih =>
    unfold binarySearch
    dsimp only
    split
    · exact ⟨none, rfl⟩
    · split
      · exact ⟨_, rfl⟩
      · split
        · split
          · exact ⟨none, rfl⟩
          · exact ih (by omega) (by omega)
        · exact ih (by omega) (by omega)

def midpoint (l r : ℕ) : ℕ := l + (r - l) / 2

theorem le_midpoint (l r : ℕ) : l ≤ midpoint l r := Nat.le_add_right _ _

theorem midpoint_le {l r : ℕ} (h : l ≤ r) : midpoint l r ≤ r := by
  unfold midpoint
  omega

/-- A midpoint that is passed on the way from two bounds to a place. -/
inductive OnWay (m : ℕ) : ℕ → ℕ → ℕ → Prop
  | here {l r : ℕ} : midpoint l r ≠ m → OnWay m l r (midpoint l r)
  | left {l r a : ℕ} : m < midpoint l r → OnWay m l (midpoint l r - 1) a → OnWay m l r a
  | right {l r a : ℕ} : midpoint l r < m → OnWay m (midpoint l r + 1) r a → OnWay m l r a

/-- The place has the key, and every midpoint on the way to it shows its side. -/
def Leads (key : ℕ → α) (x : α) (l r m : ℕ) : Prop :=
  l ≤ m ∧ m ≤ r ∧ key m = x ∧ ∀ a, OnWay m l r a → (a < m → key a < x) ∧ (m < a → x < key a)

theorem leads_here {l r : ℕ} (hle : l ≤ r) (hkey : key (midpoint l r) = x) (m : ℕ) :
    Leads key x l r m ↔ midpoint l r = m := by
  have hlow := le_midpoint l r
  have hhigh := midpoint_le hle
  constructor
  · rintro ⟨-, -, -, hway⟩
    by_contra hne
    obtain ⟨hbelow, habove⟩ := hway _ (.here hne)
    obtain hlt | hlt := Nat.lt_or_gt_of_ne hne
    · exact absurd hkey (hbelow hlt).ne
    · exact absurd hkey (habove hlt).ne'
  · rintro rfl
    refine ⟨hlow, hhigh, hkey, fun a hway => ?_⟩
    cases hway with
    | here hne => exact absurd rfl hne
    | left hlt _ => exact absurd hlt (lt_irrefl _)
    | right hlt _ => exact absurd hlt (lt_irrefl _)

theorem leads_left {l r : ℕ} (hle : l ≤ r) (hkey : x < key (midpoint l r)) (m : ℕ) :
    Leads key x l r m ↔ midpoint l r ≠ 0 ∧ Leads key x l (midpoint l r - 1) m := by
  have hlow := le_midpoint l r
  have hhigh := midpoint_le hle
  constructor
  · rintro ⟨hl, hr, hm, hway⟩
    have hne : midpoint l r ≠ m := by
      rintro rfl
      exact absurd hm hkey.ne'
    have hlt : m < midpoint l r := by
      by_contra hge
      exact absurd ((hway _ (.here hne)).1 (by omega)) hkey.not_gt
    exact ⟨by omega, hl, by omega, hm, fun a ha => hway a (.left hlt ha)⟩
  · rintro ⟨hpos, hl, hr, hm, hway⟩
    have hlt : m < midpoint l r := by omega
    refine ⟨hl, by omega, hm, fun a ha => ?_⟩
    cases ha with
    | here hne => exact ⟨fun h => absurd h (by omega), fun _ => hkey⟩
    | left _ ha => exact hway a ha
    | right hgt _ => exact absurd hgt (by omega)

theorem leads_right {l r : ℕ} (hle : l ≤ r) (hkey : key (midpoint l r) < x) (m : ℕ) :
    Leads key x l r m ↔ Leads key x (midpoint l r + 1) r m := by
  have hlow := le_midpoint l r
  have hhigh := midpoint_le hle
  constructor
  · rintro ⟨hl, hr, hm, hway⟩
    have hne : midpoint l r ≠ m := by
      rintro rfl
      exact absurd hm hkey.ne
    have hlt : midpoint l r < m := by
      by_contra hge
      exact absurd ((hway _ (.here hne)).2 (by omega)) hkey.not_gt
    exact ⟨hlt, hr, hm, fun a ha => hway a (.right hlt ha)⟩
  · rintro ⟨hl, hr, hm, hway⟩
    have hlt : midpoint l r < m := hl
    refine ⟨by omega, hr, hm, fun a ha => ?_⟩
    cases ha with
    | here hne => exact ⟨fun _ => hkey, fun h => absurd h (by omega)⟩
    | left hgt _ => exact absurd hgt (by omega)
    | right _ ha => exact hway a ha

/-- Without an order of the keys, the search finds what the midpoints lead to. -/
theorem binarySearch_leads {fuel l r : ℕ} {found : Option ℕ}
    (h : binarySearch key x fuel l r = some found) (m : ℕ) :
    found = some m ↔ Leads key x l r m := by
  induction fuel generalizing l r with
  | zero => exact absurd h (by simp [binarySearch])
  | succ fuel ih =>
    unfold binarySearch at h
    dsimp only at h
    rw [← midpoint] at h
    split at h
    next hlt =>
      obtain rfl := Option.some.inj h
      refine iff_of_false (by simp) ?_
      rintro ⟨hl, hr, -⟩
      omega
    next hge =>
      rw [not_lt] at hge
      split at h
      next hkey =>
        obtain rfl := Option.some.inj h
        rw [leads_here hge hkey, Option.some.injEq]
      next hne =>
        split at h
        next hless =>
          rw [leads_left hge hless]
          split at h
          next hzero =>
            obtain rfl := Option.some.inj h
            exact iff_of_false (by simp) fun hleads => hleads.1 hzero
          next hpos =>
            rw [ih h]
            exact ⟨fun hleads => ⟨hpos, hleads⟩, fun hleads => hleads.2⟩
        next hnot =>
          rw [leads_right hge (lt_of_le_of_ne (not_lt.mp hnot) hne)]
          exact ih h

end Iot7688.Lib
