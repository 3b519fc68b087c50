import Mathlib.Data.List.Infix

/-!
The first place of a pattern in a list. A window of a longer list has the same first
place when the window reaches behind it, and no place when it does not.
-/
namespace Iot7688.Lib

variable {α : Type*} [DecidableEq α]

/-- What is in front of the first place of the pattern, and what is behind it. -/
def findSub (pat : List α) : List α → Option (List α × List α)
  | [] => if pat = [] then some ([], []) else none
  | c :: cs =>
      if pat <+: c :: cs then some ([], (c :: cs).drop pat.length)
      else (findSub pat cs).map fun r => (c :: r.1, r.2)

variable {pat s front back : List α}

theorem findSub_cons_pos {c : α} {cs : List α} (h : pat <+: c :: cs) :
    findSub pat (c :: cs) = some ([], (c :: cs).drop pat.length) := if_pos h

theorem findSub_cons_neg {c : α} {cs : List α} (h : ¬pat <+: c :: cs) :
    findSub pat (c :: cs) = (findSub pat cs).map fun r => (c :: r.1, r.2) := if_neg h

theorem findSub_here (hpat : pat ≠ []) (back : List α) :
    findSub pat (pat ++ back) = some ([], back) := by
  obtain ⟨c, cs, rfl⟩ := List.exists_cons_of_ne_nil hpat
  rw [List.cons_append, findSub_cons_pos ⟨back, rfl⟩, ← List.cons_append, List.drop_left]

theorem findSub_some (h : findSub pat s = some (front, back)) : s = front ++ pat ++ back := by
  induction s generalizing front with
  | nil =>
    rw [findSub] at h
    split at h
    · next hpat =>
      injection h with h
      injection h with hfront hback
      rw [← hfront, ← hback, hpat]
      rfl
    · cases h
  | cons c cs ih =>
    by_cases hpre : pat <+: c :: cs
    · rw [findSub_cons_pos hpre] at h
      injection h with h
      injection h with hfront hback
      rw [← hfront, ← hback, List.nil_append]
      exact (List.prefix_iff_eq_append.mp hpre).symm
    · rw [findSub_cons_neg hpre] at h
      obtain ⟨⟨front', back'⟩, hfind, heq⟩ := Option.map_eq_some_iff.mp h
      injection heq with hfront hback
      subst hback
      rw [← hfront, ih hfind, List.cons_append, List.cons_append]

theorem findSub_length_lt (hpat : pat ≠ []) (h : findSub pat s = some (front, back)) :
    back.length < s.length := by
  have hpos := List.length_pos_iff.mpr hpat
  rw [findSub_some h, List.length_append, List.length_append]
  omega

/-- No place begins in the text that is skipped. -/
theorem findSub_skip {skipped : List α}
    (h : ∀ t, t ≠ [] → t <:+ skipped → ¬pat <+: t ++ s) :
    findSub pat (skipped ++ s) = (findSub pat s).map fun r => (skipped ++ r.1, r.2) := by
  induction skipped with
  | nil => simp
  | cons c cs ih =>
    have hhere := h (c :: cs) (List.cons_ne_nil _ _) (List.suffix_refl _)
    have hrest := ih fun t hne ht => h t hne (ht.trans (List.suffix_cons c cs))
    rw [List.cons_append] at hhere ⊢
    rw [findSub_cons_neg hhere, hrest, Option.map_map]
    rfl

/-- More text behind a place changes nothing in front of it. -/
theorem findSub_append (hpat : pat ≠ []) (h : findSub pat s = some (front, back)) (more : List α) :
    findSub pat (s ++ more) = some (front, back ++ more) := by
  induction s generalizing front with
  | nil =>
    rw [findSub, if_neg hpat] at h
    cases h
  | cons c cs ih =>
    by_cases hpre : pat <+: c :: cs
    · rw [findSub_cons_pos hpre] at h
      injection h with h
      injection h with hfront hback
      have hpre' : pat <+: c :: (cs ++ more) := hpre.trans (List.prefix_append (c :: cs) more)
      rw [List.cons_append, findSub_cons_pos hpre', ← hfront, ← hback, ← List.cons_append,
        List.drop_append_of_le_length hpre.length_le]
    · have hlen : pat.length ≤ (c :: cs).length := by
        rw [findSub_some h, List.length_append, List.length_append]
        omega
      rw [findSub_cons_neg hpre] at h
      obtain ⟨⟨front', back'⟩, hfind, heq⟩ := Option.map_eq_some_iff.mp h
      injection heq with hfront hback
      subst hback
      have hpre' : ¬pat <+: c :: (cs ++ more) := by
        intro hcon
        exact hpre (List.prefix_of_prefix_length_le hcon (List.prefix_append (c :: cs) more) hlen)
      rw [List.cons_append, findSub_cons_neg hpre', ih hfind, ← hfront]
      rfl

theorem findSub_none_of_append (hpat : pat ≠ []) {more : List α}
    (h : findSub pat (s ++ more) = none) : findSub pat s = none := by
  match hs : findSub pat s with
  | none => rfl
  | some r => rw [findSub_append hpat hs more] at h; cases h

theorem findSub_ne_none (front back : List α) : findSub pat (front ++ pat ++ back) ≠ none := by
  induction front with
  | nil =>
    by_cases hpat : pat = []
    · subst hpat
      cases back with
      | nil => exact nofun
      | cons c cs =>
        rw [List.nil_append, List.nil_append, findSub_cons_pos List.nil_prefix]
        exact nofun
    · rw [List.nil_append, findSub_here hpat]
      exact nofun
  | cons c cs ih =>
    rw [List.cons_append, List.cons_append]
    by_cases hpre : pat <+: c :: (cs ++ pat ++ back)
    · rw [findSub_cons_pos hpre]
      exact nofun
    · rw [findSub_cons_neg hpre]
      simpa using ih

theorem findSub_none_of_suffix {t : List α} (h : findSub pat s = none) (ht : t <:+ s) :
    findSub pat t = none := by
  obtain ⟨u, rfl⟩ := ht
  match hs : findSub pat t with
  | none => rfl
  | some (front, back) =>
    rw [findSub_some hs, ← List.append_assoc, ← List.append_assoc] at h
    exact absurd h (findSub_ne_none (u ++ front) back)

theorem findSub_of_length_lt (h : s.length < pat.length) : findSub pat s = none := by
  match hs : findSub pat s with
  | none => rfl
  | some (front, back) =>
    rw [findSub_some hs] at h
    simp only [List.length_append] at h
    omega

/-- The window reaches behind the place. -/
theorem findSub_window (hpat : pat ≠ []) {more : List α}
    (h : findSub pat (s ++ more) = some (front, back)) (hlen : (front ++ pat).length ≤ s.length) :
    ∃ back', findSub pat s = some (front, back') ∧ back = back' ++ more := by
  match hs : findSub pat s with
  | some (front', back') =>
    rw [findSub_append hpat hs more] at h
    injection h with h
    injection h with hfront hback
    exact ⟨back', by rw [hfront], hback.symm⟩
  | none =>
    have hall : front ++ pat <+: s ++ more := ⟨back, (findSub_some h).symm⟩
    obtain ⟨back', rfl⟩ := List.prefix_of_prefix_length_le hall (List.prefix_append s more) hlen
    exact absurd hs (findSub_ne_none front back')

/-- The window ends in front of the end of the place. -/
theorem findSub_window_none (hpat : pat ≠ []) {more : List α}
    (h : findSub pat (s ++ more) = some (front, back)) (hlen : s.length < (front ++ pat).length) :
    findSub pat s = none := by
  match hs : findSub pat s with
  | none => rfl
  | some (front', back') =>
    rw [findSub_append hpat hs more] at h
    injection h with h
    injection h with hfront hback
    rw [findSub_some hs, hfront] at hlen
    simp only [List.length_append] at hlen
    omega

end Iot7688.Lib
