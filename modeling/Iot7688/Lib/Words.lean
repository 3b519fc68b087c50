import Mathlib.Data.List.TakeWhile

/-!
The words of a text: its maximal nonempty runs without a separator. Splitting at any
separator splits the list of words, so a scanner that cuts off one word at a time
collects them all.
-/
namespace Iot7688.Lib

variable {α : Type} (sep : α → Bool)

def words (text : List α) : List (List α) := (text.splitOnP sep).filter fun w => !w.isEmpty

variable {sep}

theorem words_nil : words sep [] = [] := rfl

theorem words_append_sep {c : α} (hc : sep c = true) (front back : List α) :
    words sep (front ++ c :: back) = words sep front ++ words sep back := by
  unfold words
  rw [List.splitOnP_append_cons front back hc, List.filter_append]

theorem words_cons_sep {c : α} (hc : sep c = true) (text : List α) :
    words sep (c :: text) = words sep text := words_append_sep hc [] text

theorem words_run {w : List α} (hne : w ≠ []) (hw : ∀ c ∈ w, sep c = false) :
    words sep w = [w] := by
  unfold words
  rw [List.splitOnP_eq_singleton hw]
  simpa using hne

theorem words_run_sep {w : List α} (hne : w ≠ []) (hw : ∀ c ∈ w, sep c = false) {c : α}
    (hc : sep c = true) (text : List α) :
    words sep (w ++ c :: text) = w :: words sep text := by
  rw [words_append_sep hc, words_run hne hw]
  rfl

/-- Separators in front of a text belong to no word. -/
theorem words_seps_append {front : List α} (hfront : ∀ c ∈ front, sep c = true) (text : List α) :
    words sep (front ++ text) = words sep text := by
  induction front with
  | nil => rfl
  | cons c front ih =>
    rw [List.cons_append, words_cons_sep (hfront c (List.mem_cons_self ..))]
    exact ih fun d hd => hfront d (List.mem_cons_of_mem _ hd)

/-- What a scanner finds: no word, a word up to the end, or a word and more behind a
separator. -/
theorem cut_word (sep : α → Bool) (text : List α) :
    (∀ c ∈ text, sep c = true) ∨
      ∃ front w, (∀ c ∈ front, sep c = true) ∧ w ≠ [] ∧ (∀ c ∈ w, sep c = false) ∧
        (text = front ++ w ∨ ∃ d rest, sep d = true ∧ text = front ++ w ++ d :: rest) := by
  have htext := List.takeWhile_append_dropWhile (p := sep) (l := text)
  cases hdrop : text.dropWhile sep with
  | nil => exact Or.inl (List.dropWhile_eq_nil_iff.mp hdrop)
  | cons c cs =>
    have hc := List.head_dropWhile_not sep (l := text) (by rw [hdrop]; exact List.cons_ne_nil _ _)
    simp only [hdrop, List.head_cons] at hc
    have hword := List.takeWhile_append_dropWhile (p := fun c => !sep c) (l := c :: cs)
    refine Or.inr ⟨text.takeWhile sep, (c :: cs).takeWhile fun c => !sep c,
      fun d hd => List.mem_takeWhile_imp hd, ?_, fun d hd => ?_, ?_⟩
    · rw [List.takeWhile_cons_of_pos (by simp [hc])]
      exact List.cons_ne_nil _ _
    · simpa using List.mem_takeWhile_imp hd
    · cases hrest : (c :: cs).dropWhile fun c => !sep c with
      | nil =>
        rw [hrest, List.append_nil] at hword
        exact Or.inl (by rw [hword, ← hdrop, htext])
      | cons d rest =>
        have hd := List.head_dropWhile_not (fun c => !sep c) (l := c :: cs)
          (by rw [hrest]; exact List.cons_ne_nil _ _)
        simp only [hrest, List.head_cons, Bool.not_eq_eq_eq_not, Bool.not_false] at hd
        refine Or.inr ⟨d, rest, hd, ?_⟩
        rw [List.append_assoc, ← hrest, hword, ← hdrop, htext]

theorem words_eq_nil_iff {text : List α} : words sep text = [] ↔ ∀ c ∈ text, sep c = true := by
  constructor
  · intro h
    obtain hseps | ⟨front, w, hfront, hne, hw, htext⟩ := cut_word sep text
    · exact hseps
    · obtain rfl | ⟨d, rest, hd, rfl⟩ := htext
      · rw [words_seps_append hfront, words_run hne hw] at h
        cases h
      · rw [List.append_assoc, words_seps_append hfront, words_run_sep hne hw hd] at h
        cases h
  · intro h
    rw [← List.append_nil text, words_seps_append h, words_nil]

end Iot7688.Lib
