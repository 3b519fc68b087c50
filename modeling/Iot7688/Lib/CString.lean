import Iot7688.Lib.Memory

/-!
C strings in a buffer: the first limit bytes of a memory. A search that leaves the buffer
has no result. What a search finds follows from the text that stands at its start, and a
byte written outside of a text does not change it.
-/
namespace Iot7688.Lib

/-- strchr for a byte that is not 0: the place of its first occurrence, or none in front of
the NUL. -/
def strchr (m : Mem) (limit : ℕ) (c : Byte) (p : ℕ) : Option (Option ℕ) :=
  if p < limit then
    if m p = c then some (some p)
    else if m p = 0 then some none
    else strchr m limit c (p + 1)
  else none
termination_by limit - p

/-- The bytes of a string in front of its NUL. -/
def cstr (m : Mem) (limit p : ℕ) : Option (List Byte) :=
  if p < limit then
    if m p = 0 then some [] else (cstr m limit (p + 1)).map (m p :: ·)
  else none
termination_by limit - p

/-- strcmp of a string with one in memory: whether they are equal. -/
def streq : List Byte → Mem → ℕ → Bool
  | [], m, p => m p = 0
  | b :: bs, m, p => m p = b && streq bs m (p + 1)

/-- A text stands in memory. -/
def Text (m : Mem) : ℕ → List Byte → Prop
  | _, [] => True
  | p, b :: bs => m p = b ∧ Text m (p + 1) bs

variable {m m' : Mem} {limit p i : ℕ} {b c : Byte} {bs cs : List Byte}

theorem text_append : Text m p (bs ++ cs) ↔ Text m p bs ∧ Text m (p + bs.length) cs := by
  induction bs generalizing p with
  | nil => exact (and_iff_right trivial).symm
  | cons b bs ih =>
    have hplace : p + (b :: bs).length = p + 1 + bs.length := by
      rw [List.length_cons]
      omega
    rw [List.cons_append, Text, Text, ih, hplace, and_assoc]

theorem text_congr (h : ∀ i, p ≤ i → i < p + bs.length → m' i = m i) (htext : Text m p bs) :
    Text m' p bs := by
  induction bs generalizing p with
  | nil => trivial
  | cons b bs ih =>
    rw [List.length_cons] at h
    refine ⟨(h p le_rfl (by omega)).trans htext.1, ih (fun i hi hlt => ?_) htext.2⟩
    exact h i (by omega) (by omega)

/-- A part of a list stands where it belongs in a memory that holds the list. -/
theorem text_of_getD {whole done back : List Byte} (hc : whole = done ++ bs ++ back)
    (hm : ∀ i, done.length ≤ i → m i = whole.getD i 0) : Text m done.length bs := by
  induction bs generalizing done with
  | nil => trivial
  | cons b bs ih =>
    refine ⟨?_, ?_⟩
    · rw [hm _ le_rfl, hc]
      simp
    · have hnext : whole = (done ++ [b]) ++ bs ++ back := by
        rw [hc]
        simp
      have hlen : (done ++ [b]).length = done.length + 1 := by simp
      rw [← hlen]
      refine ih hnext fun i hi => hm i ?_
      omega

theorem text_get (htext : Text m p bs) (hi : i < bs.length) : m (p + i) = bs[i] := by
  induction bs generalizing p i with
  | nil => exact absurd hi (Nat.not_lt_zero i)
  | cons b bs ih =>
    cases i with
    | zero => exact htext.1
    | succ i =>
      have hplace : p + (i + 1) = p + 1 + i := by omega
      rw [List.length_cons] at hi
      rw [hplace, ih htext.2 (by omega)]
      rfl

/-- A text that is copied with what stands behind it. -/
theorem text_copy {o n : ℕ} (htext : Text m p bs) (hlen : bs.length ≤ n) :
    Text (m'.copy o n (m.shift p)) o bs := by
  induction bs generalizing p o n m' with
  | nil => trivial
  | cons b bs ih =>
    rw [List.length_cons] at hlen
    refine ⟨(Mem.copy_inside _ _ (i := 0) (by omega)).trans htext.1, ?_⟩
    have hsplit : m'.copy o n (m.shift p) =
        (m'.copy o 1 (m.shift p)).copy (o + 1) (n - 1) (m.shift (p + 1)) := by
      rw [← Mem.shift_shift, Mem.copy_append, Nat.add_sub_cancel' (by omega)]
    rw [hsplit]
    exact ih htext.2 (by omega)

theorem text_update (hi : i < p ∨ p + bs.length ≤ i) (htext : Text m p bs) :
    Text (Function.update m i b) p bs := by
  refine text_congr (fun j hj hlt => ?_) htext
  exact Function.update_of_ne (by omega) _ _

theorem strchr_found (htext : Text m p bs) (hc : c ∉ bs) (hnul : 0 ∉ bs)
    (hhit : m (p + bs.length) = c) (hin : p + bs.length < limit) :
    strchr m limit c p = some (some (p + bs.length)) := by
  induction bs generalizing p with
  | nil =>
    rw [List.length_nil, Nat.add_zero] at hhit hin ⊢
    rw [strchr, if_pos hin, if_pos hhit]
  | cons b bs ih =>
    rw [List.mem_cons, not_or] at hc hnul
    have hplace : p + (b :: bs).length = p + 1 + bs.length := by
      rw [List.length_cons]
      omega
    rw [hplace] at hhit hin ⊢
    rw [strchr, if_pos (by omega), htext.1, if_neg (Ne.symm hc.1), if_neg (Ne.symm hnul.1)]
    exact ih htext.2 hc.2 hnul.2 hhit hin

theorem strchr_absent (htext : Text m p bs) (hc : c ∉ bs) (hnul : 0 ∉ bs) (hne : c ≠ 0)
    (hend : m (p + bs.length) = 0) (hin : p + bs.length < limit) :
    strchr m limit c p = some none := by
  induction bs generalizing p with
  | nil =>
    rw [List.length_nil, Nat.add_zero] at hend hin
    rw [strchr, if_pos hin, hend, if_neg (Ne.symm hne), if_pos rfl]
  | cons b bs ih =>
    rw [List.mem_cons, not_or] at hc hnul
    have hplace : p + (b :: bs).length = p + 1 + bs.length := by
      rw [List.length_cons]
      omega
    rw [hplace] at hend hin
    rw [strchr, if_pos (by omega), htext.1, if_neg (Ne.symm hc.1), if_neg (Ne.symm hnul.1)]
    exact ih htext.2 hc.2 hnul.2 hend hin

theorem cstr_text (htext : Text m p bs) (hnul : 0 ∉ bs) (hend : m (p + bs.length) = 0)
    (hin : p + bs.length < limit) : cstr m limit p = some bs := by
  induction bs generalizing p with
  | nil =>
    rw [List.length_nil, Nat.add_zero] at hend hin
    rw [cstr, if_pos hin, if_pos hend]
  | cons b bs ih =>
    rw [List.mem_cons, not_or] at hnul
    have hplace : p + (b :: bs).length = p + 1 + bs.length := by
      rw [List.length_cons]
      omega
    rw [hplace] at hend hin
    rw [cstr, if_pos (by omega), htext.1, if_neg (Ne.symm hnul.1), ih htext.2 hnul.2 hend hin]
    rfl

theorem cstr_congr (h : ∀ i, p ≤ i → i < limit → m' i = m i) : cstr m' limit p = cstr m limit p := by
  induction hn : limit - p generalizing p with
  | zero =>
    rw [cstr, if_neg (by omega)]
    rw [cstr, if_neg (by omega)]
  | succ n ih =>
    have hrest := ih (fun i hi => h i (by omega)) (by omega : limit - (p + 1) = n)
    unfold cstr
    rw [h p le_rfl (by omega), hrest]

theorem cstr_eq_some (h : cstr m limit p = some bs) :
    Text m p bs ∧ 0 ∉ bs ∧ m (p + bs.length) = 0 ∧ p + bs.length < limit := by
  induction bs generalizing p with
  | nil =>
    rw [cstr] at h
    split at h
    · rename_i hp
      split at h
      · rename_i hzero
        exact ⟨trivial, List.not_mem_nil, hzero, hp⟩
      · simp at h
    · cases h
  | cons b bs ih =>
    rw [cstr] at h
    split at h
    · split at h
      · cases h
      · rename_i hzero
        obtain ⟨cs, hcs, heq⟩ := Option.map_eq_some_iff.mp h
        obtain ⟨hb, rfl⟩ := List.cons.inj heq
        obtain ⟨htext, hnul, hend, hin⟩ := ih hcs
        have hplace : p + (b :: cs).length = p + 1 + cs.length := by
          rw [List.length_cons]
          omega
        rw [hplace]
        refine ⟨⟨hb, htext⟩, ?_, hend, hin⟩
        rw [List.mem_cons, not_or]
        exact ⟨fun hb0 => hzero (hb.trans hb0.symm), hnul⟩
    · cases h

/-- A search ends in front of a NUL. -/
theorem strchr_ends {z : ℕ} (hp : p ≤ z) (hz : m z = 0) (hin : z < limit) :
    ∃ found, strchr m limit c p = some found := by
  induction hn : z - p generalizing p with
  | zero =>
    obtain rfl : p = z := by omega
    rw [strchr, if_pos hin]
    by_cases hc : m p = c
    · exact ⟨some p, if_pos hc⟩
    · rw [if_neg hc]
      exact ⟨none, if_pos hz⟩
  | succ n ih =>
    rw [strchr, if_pos (by omega)]
    by_cases hc : m p = c
    · exact ⟨some p, if_pos hc⟩
    · rw [if_neg hc]
      by_cases hzero : m p = 0
      · exact ⟨none, if_pos hzero⟩
      · rw [if_neg hzero]
        exact ih (by omega) (by omega)

theorem streq_iff (h : cstr m limit p = some cs) (hnul : 0 ∉ bs) : streq bs m p = true ↔ cs = bs := by
  obtain ⟨htext, hcs, hend, -⟩ := cstr_eq_some h
  clear h
  induction bs generalizing p cs with
  | nil =>
    cases cs with
    | nil =>
      rw [List.length_nil, Nat.add_zero] at hend
      simp [streq, hend]
    | cons c cs =>
      rw [List.mem_cons, not_or] at hcs
      simp [streq, htext.1, Ne.symm hcs.1]
  | cons b bs ih =>
    rw [List.mem_cons, not_or] at hnul
    cases cs with
    | nil =>
      rw [List.length_nil, Nat.add_zero] at hend
      simp [streq, hend, hnul.1]
    | cons c cs =>
      rw [List.mem_cons, not_or] at hcs
      have hplace : p + (c :: cs).length = p + 1 + cs.length := by
        rw [List.length_cons]
        omega
      rw [hplace] at hend
      have hrest := ih hnul.2 htext.2 hcs.2 hend
      rw [streq, Bool.and_eq_true, decide_eq_true_iff, hrest, htext.1, List.cons.injEq]

end Iot7688.Lib
