import Iot7688.Lib.CString

/-!
strtok with one delimiter over a buffer: the tokens of a text are cut out in place, one by
one. The text from the saved place on is still as it was, so that the places where tokens
start are known from the text before the first call.
-/
namespace Iot7688.Lib

/-- The first place with another byte. -/
def skipByte (m : Mem) (limit : ℕ) (c : Byte) (p : ℕ) : Option ℕ :=
  if p < limit then
    if m p = c then skipByte m limit c (p + 1) else some p
  else none
termination_by limit - p

/-- The first place with the byte or a NUL. -/
def tokenEnd (m : Mem) (limit : ℕ) (c : Byte) (p : ℕ) : Option ℕ :=
  if p < limit then
    if m p = c ∨ m p = 0 then some p else tokenEnd m limit c (p + 1)
  else none
termination_by limit - p

/-- The token from a place on, if any, the buffer with its end cut, and the place that is
saved for the next call. -/
def strtok (m : Mem) (limit : ℕ) (c : Byte) (p : ℕ) : Option (Option ℕ × Mem × ℕ) :=
  match skipByte m limit c p with
  | none => none
  | some b =>
      if m b = 0 then some (none, m, b)
      else
        match tokenEnd m limit c b with
        | none => none
        | some e =>
            if m e = c then some (some b, Function.update m e 0, e + 1) else some (some b, m, e)

/-- A token starts here: another byte than the delimiter, at the start or behind one. -/
def tokenStart (m : Mem) (c : Byte) (i : ℕ) : Bool := m i ≠ c && (i = 0 || m (i - 1) = c)

/-- The places where tokens start in front of a place, in order. -/
def tokenStarts (m : Mem) (c : Byte) (p len : ℕ) : List ℕ :=
  (List.range' p (len - p)).filter (tokenStart m c)

variable {m s : Mem} {limit len p q b n : ℕ} {c : Byte} {bs : List Byte} {ps : List ℕ}

/-- A text ends with its NUL inside of the buffer. -/
structure Ends (m : Mem) (len limit : ℕ) : Prop where
  inside : len < limit
  nul : m len = 0
  text : ∀ i, i < len → m i ≠ 0

/-- What is left for the next call: the text is as it was from a place on at which it ends
or a token may start. -/
structure Left (m s : Mem) (c : Byte) (len p : ℕ) : Prop where
  same : ∀ i, p ≤ i → s i = m i
  le : p ≤ len
  fresh : p = 0 ∨ m (p - 1) = c ∨ p = len

theorem skipByte_text {k : ℕ} (h : Text m p (List.replicate k c)) (hstop : m (p + k) ≠ c)
    (hin : p + k < limit) : skipByte m limit c p = some (p + k) := by
  induction k generalizing p with
  | zero =>
    rw [Nat.add_zero] at hstop hin ⊢
    rw [skipByte, if_pos hin, if_neg hstop]
  | succ k ih =>
    have hplace : p + (k + 1) = p + 1 + k := by omega
    rw [hplace] at hstop hin ⊢
    rw [skipByte, if_pos (by omega), if_pos h.1]
    exact ih h.2 hstop hin

theorem tokenEnd_text (h : Text m p bs) (hc : c ∉ bs) (hnul : 0 ∉ bs) (hstop : m (p + bs.length) = c)
    (hin : p + bs.length < limit) : tokenEnd m limit c p = some (p + bs.length) := by
  induction bs generalizing p with
  | nil =>
    rw [List.length_nil, Nat.add_zero] at hstop hin ⊢
    rw [tokenEnd, if_pos hin, if_pos (Or.inl hstop)]
  | cons b bs ih =>
    rw [List.mem_cons, not_or] at hc hnul
    have hplace : p + (b :: bs).length = p + 1 + bs.length := by
      rw [List.length_cons]
      omega
    have hfirst : ¬(m p = c ∨ m p = 0) := by
      rw [h.1]
      exact not_or.mpr ⟨Ne.symm hc.1, Ne.symm hnul.1⟩
    rw [hplace] at hstop hin ⊢
    rw [tokenEnd, if_pos (by omega), if_neg hfirst]
    exact ih h.2 hc.2 hnul.2 hstop hin

/-- A token that stands at the place, with its delimiter. -/
theorem strtok_text (h : Text m p (bs ++ [c])) (hne : bs ≠ []) (hc : c ∉ bs) (hnul : 0 ∉ bs)
    (hin : p + bs.length < limit) : strtok m limit c p =
      some (some p, Function.update m (p + bs.length) 0, p + bs.length + 1) := by
  obtain ⟨htext, hend, -⟩ := text_append.mp h
  have hfirst : m p ≠ c ∧ m p ≠ 0 := by
    cases bs with
    | nil => exact absurd rfl hne
    | cons b bs =>
      rw [htext.1]
      rw [List.mem_cons, not_or] at hc hnul
      exact ⟨Ne.symm hc.1, Ne.symm hnul.1⟩
  have hskip : skipByte m limit c p = some p := by
    rw [skipByte, if_pos (by omega), if_neg hfirst.1]
  unfold strtok
  rw [hskip]
  dsimp only
  rw [if_neg hfirst.2, tokenEnd_text htext hc hnul hend hin]
  exact if_pos hend

theorem strtok_end (hzero : m p = 0) (hc : c ≠ 0) (hin : p < limit) :
    strtok m limit c p = some (none, m, p) := by
  have hskip : skipByte m limit c p = some p := by
    rw [skipByte, if_pos hin, if_neg (by rw [hzero]; exact Ne.symm hc)]
  unfold strtok
  rw [hskip]
  exact if_pos hzero

theorem tokenStarts_cons (h : p < len) : tokenStarts m c p len =
    if tokenStart m c p then p :: tokenStarts m c (p + 1) len else tokenStarts m c (p + 1) len := by
  have hlen : len - p = len - (p + 1) + 1 := by omega
  unfold tokenStarts
  rw [hlen, List.range'_succ, List.filter_cons]

theorem tokenStarts_end (h : len ≤ p) : tokenStarts m c p len = [] := by
  have hlen : len - p = 0 := by omega
  rw [tokenStarts, hlen]
  rfl

/-- Delimiters in front of the place make no difference. -/
theorem strtok_skip (h : skipByte m limit c p = some b) :
    strtok m limit c b = strtok m limit c p := by
  have hskip : skipByte m limit c b = some b := by
    induction hn : limit - p generalizing p with
    | zero =>
      rw [skipByte, if_neg (by omega)] at h
      cases h
    | succ n ih =>
      rw [skipByte, if_pos (by omega)] at h
      by_cases hm : m p = c
      · rw [if_pos hm] at h
        exact ih h (by omega)
      · rw [if_neg hm] at h
        obtain rfl := Option.some.inj h
        rw [skipByte, if_pos (by omega), if_neg hm]
  unfold strtok
  rw [hskip, h]

section

variable (h : Ends m len limit)

include h

/-- Inside of a token no other one starts. -/
theorem tokenEnd_left (hsame : ∀ i, q ≤ i → s i = m i) (hle : q ≤ len) (hpos : 0 < q)
    (hinside : m (q - 1) ≠ c) : ∃ e, tokenEnd s limit c q = some e ∧ q ≤ e ∧
      (e = len ∧ tokenStarts m c q len = [] ∨
        e < len ∧ m e = c ∧ tokenStarts m c q len = tokenStarts m c (e + 1) len) := by
  have hin := h.inside
  induction hn : len - q generalizing q with
  | zero =>
    obtain rfl : q = len := by omega
    refine ⟨q, ?_, le_rfl, Or.inl ⟨rfl, tokenStarts_end le_rfl⟩⟩
    rw [tokenEnd, if_pos hin, hsame q le_rfl, if_pos (Or.inr h.nul)]
  | succ n ih =>
    have hq : q < len := by omega
    have hstart : tokenStart m c q ≠ true := by
      simp [tokenStart, hinside, Nat.ne_of_gt hpos]
    rw [tokenEnd, if_pos (by omega), hsame q le_rfl, tokenStarts_cons hq, if_neg hstart]
    by_cases hm : m q = c
    · exact ⟨q, if_pos (Or.inl hm), le_rfl, Or.inr ⟨hq, hm, rfl⟩⟩
    · rw [if_neg (not_or.mpr ⟨hm, h.text q hq⟩)]
      obtain ⟨e, he, hqe, hcases⟩ :=
        ih (fun i hi => hsame i (by omega)) hq (Nat.succ_pos q) hm (by omega)
      exact ⟨e, he, by omega, hcases⟩

variable (hc : c ≠ 0)

include hc

/-- Skipping delimiters leads to the first start that is left. -/
theorem skipByte_left (hleft : Left m s c len p) : ∃ b, skipByte s limit c p = some b ∧
    (b = len ∧ tokenStarts m c p len = [] ∨
      b < len ∧ p ≤ b ∧ m b ≠ c ∧ tokenStarts m c p len = b :: tokenStarts m c (b + 1) len) := by
  have hle := hleft.le
  have hin := h.inside
  induction hn : len - p generalizing p with
  | zero =>
    obtain rfl : p = len := by omega
    refine ⟨p, ?_, Or.inl ⟨rfl, tokenStarts_end le_rfl⟩⟩
    rw [skipByte, if_pos hin, hleft.same p le_rfl, h.nul, if_neg (Ne.symm hc)]
  | succ n ih =>
    have hp : p < len := by omega
    rw [skipByte, if_pos (by omega), hleft.same p le_rfl, tokenStarts_cons hp]
    by_cases hm : m p = c
    · have hnext : Left m s c len (p + 1) :=
        ⟨fun i hi => hleft.same i (by omega), hp, Or.inr (Or.inl hm)⟩
      obtain ⟨b, hb, hcases⟩ := ih hnext hp (by omega)
      rw [if_pos hm, if_neg (by simp [tokenStart, hm])]
      refine ⟨b, hb, hcases.imp_right fun ⟨hlt, hpb, hrest⟩ => ⟨hlt, by omega, hrest⟩⟩
    · have hstart : tokenStart m c p = true := by
        have hfresh := hleft.fresh
        have hprev : p = 0 ∨ m (p - 1) = c := by
          rcases hfresh with h0 | h1 | h2
          · exact Or.inl h0
          · exact Or.inr h1
          · omega
        simpa [tokenStart, hm] using hprev
      rw [if_neg hm, if_pos hstart]
      exact ⟨p, rfl, Or.inr ⟨hp, le_rfl, hm, rfl⟩⟩

theorem strtok_none (hleft : Left m s c len p) (hstarts : tokenStarts m c p len = []) :
    strtok s limit c p = some (none, s, len) := by
  obtain ⟨b, hb, ⟨rfl, -⟩ | ⟨-, -, -, hcons⟩⟩ := skipByte_left h hc hleft
  · have hp := hleft.same b hleft.le
    unfold strtok
    rw [hb]
    exact if_pos (hp.trans h.nul)
  · rw [hcons] at hstarts
    cases hstarts

/-- A call gives the first start that is left and leaves the others. -/
theorem strtok_some (hleft : Left m s c len p) (hstarts : tokenStarts m c p len = b :: ps) :
    ∃ s' q, strtok s limit c p = some (some b, s', q) ∧ Left m s' c len q ∧
      tokenStarts m c q len = ps := by
  obtain ⟨b', hb, ⟨-, hnil⟩ | ⟨hlt, hpb, hm, hcons⟩⟩ := skipByte_left h hc hleft
  · rw [hnil] at hstarts
    cases hstarts
  rw [hcons] at hstarts
  obtain ⟨rfl, hps⟩ := List.cons.inj hstarts
  have hin := h.inside
  have hsb : s b' = m b' := hleft.same b' hpb
  have hnul := h.text b' hlt
  obtain ⟨e, he, hbe, hend⟩ := tokenEnd_left h (s := s) (q := b' + 1)
    (fun i hi => hleft.same i (by omega)) hlt (Nat.succ_pos b') hm
  have hfirst : tokenEnd s limit c b' = some e := by
    rw [tokenEnd, if_pos (by omega), hsb, if_neg (not_or.mpr ⟨hm, hnul⟩), he]
  have hse : s e = m e := hleft.same e (by omega)
  unfold strtok
  rw [hb]
  dsimp only
  rw [hsb, if_neg hnul, hfirst]
  dsimp only
  rw [hse]
  rcases hend with ⟨rfl, hnil⟩ | ⟨helt, hme, hrest⟩
  · rw [h.nul, if_neg (Ne.symm hc)]
    refine ⟨s, e, rfl, ⟨fun i hi => hleft.same i (by omega), le_rfl, Or.inr (Or.inr rfl)⟩, ?_⟩
    rw [tokenStarts_end le_rfl, ← hps, hnil]
  · rw [if_pos hme]
    refine ⟨_, e + 1, rfl, ⟨fun i hi => ?_, helt, Or.inr (Or.inl hme)⟩, hrest.symm.trans hps⟩
    rw [Function.update_of_ne (by omega)]
    exact hleft.same i (by omega)

theorem strtok_left (hleft : Left m s c len p) : ∃ s' q,
    strtok s limit c p = some ((tokenStarts m c p len).head?, s', q) ∧ Left m s' c len q ∧
      tokenStarts m c q len = (tokenStarts m c p len).tail := by
  cases hstarts : tokenStarts m c p len with
  | nil =>
    refine ⟨s, len, strtok_none h hc hleft hstarts, ?_, tokenStarts_end le_rfl⟩
    exact ⟨fun i hi => hleft.same i (le_trans hleft.le hi), le_rfl, Or.inr (Or.inr rfl)⟩
  | cons b ps => exact strtok_some h hc hleft hstarts

end

end Iot7688.Lib
