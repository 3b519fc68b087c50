import Iot7688.Po2lmo

/-!
The buffers of the converter. A call of extract_string stays inside any buffer of 4096
bytes, but nothing bounds the sum of the pieces that strcat puts together, and a line that
does not fit into the line buffer is read in two parts. The strings of an entry are followed
without a bound, and the buffers against them.
-/
namespace Iot7688.Po2lmo

open Lib Lmo
open Template (ascii)

/-- The offsets of dest that the loop of extract_string writes to. -/
def extractWrites : List Byte → ℕ → Option ℕ → Bool → List ℤ
  | [], _, _, _ => []
  | c :: src, pos, off, esc =>
      if bufferSize ≤ pos then []
      else
        match off with
        | none => extractWrites src (pos + 1) (if c = quote then some (pos + 1) else none) esc
        | some o =>
            if esc then
              let o := if c = quote ∨ c = backslash then o + 1 else o
              ((pos : ℤ) - o) :: extractWrites src (pos + 1) (some o) false
            else if c = backslash then ((pos : ℤ) - o) :: extractWrites src (pos + 1) (some o) true
            else if c = quote then [(pos : ℤ) - o]
            else ((pos : ℤ) - o) :: extractWrites src (pos + 1) (some o) false

/-- The line as a string: it ends at its first NUL. -/
def cline (line : List Byte) : List Byte := line.takeWhile fun b => b != 0

/-- The rest of a line of which fgets returned a part, from what it returns next. -/
def lineRest : List (List Byte) → List Byte
  | [] => []
  | line :: lines => if line.getLast? = some newline then line else line ++ lineRest lines

/-- The line that a part belongs to, from this part on. -/
def wholeLine (line : List Byte) (lines : List (List Byte)) : List Byte :=
  if line.getLast? = some newline then line else line ++ lineRest lines

/-- The text of a literal up to its closing quote or the end; `esc` behind a backslash. -/
def literalRest : Bool → List Byte → List Byte
  | esc, [] => if esc then [backslash] else []
  | true, c :: s =>
      if c = quote ∨ c = backslash then c :: literalRest false s
      else backslash :: c :: literalRest false s
  | false, c :: s =>
      if c = backslash then literalRest true s
      else if c = quote then [] else c :: literalRest false s

/-- The length of the literal of a line, were it read whole. -/
def literalLength (line : List Byte) : ℕ :=
  match line.dropWhile fun b => b != quote with
  | [] => 0
  | _ :: s => (literalRest false s).length

/-- The lengths of the key and the value of an entry, were all its lines read whole. -/
def wanted (state : ℕ) (line whole : List Byte) (w : ℕ × ℕ) : ℕ × ℕ :=
  if state = 0 then
    if startsWith line "msgid \"" then (literalLength whole, 0) else w
  else if state = 1 ∧ startsWith line "msgstr \"" = false then (w.1 + literalLength whole, w.2)
  else (w.1, w.2 + literalLength whole)

/-- The entry is written. -/
def Stores (key val : List Byte) : Prop :=
  0 < key.length ∧ 0 < val.length ∧ sfhHash key ≠ sfhHash val

/-- An entry that a line completes is not written if its key or its value does not fit. -/
def RoundWhole (line whole : List Byte) (s : PoState) (w : ℕ × ℕ) : Prop :=
  ∀ s', scanLine line s = .ok s' → s'.state = 4 → Stores (cstr s'.key) (cstr s'.val) →
    (wanted s.state line whole w).1 < bufferSize ∧ (wanted s.state line whole w).2 < bufferSize

/-- No entry that is too long is written. -/
def StoresWhole : List (List Byte) → PoState → ℕ × ℕ → Prop
  | [], s, w => 2 ≤ s.state → RoundWhole [] [] s w
  | line :: lines, s, w =>
      RoundWhole (cline line) (cline (wholeLine line lines)) s w ∧
        ∀ s', scan line s = .ok s' → StoresWhole lines s'
          (wanted s.state (cline line) (cline (wholeLine line lines)) w)

/-- The lines as fgets returns them. -/
def linesOf (input : List Byte) : List (List Byte) := fgetsLines [] (bufferSize - 1) input

/-- What is to hold of a run on an input, for any contents of the stack. -/
structure Right (stack : Mem) (input : List Byte) : Prop where
  extract : ∀ line ∈ [] :: linesOf input, ∀ i ∈ extractWrites (cline line) 0 none false,
    0 ≤ i ∧ i < bufferSize
  append : po2lmo stack input ≠ .error .overrun
  whole : StoresWhole (linesOf input) ⟨zeros, zeros, stack, 0, 0, [], []⟩ (0, 0)

/-- The strings of an entry without a bound; tmp as it is. -/
structure Acc where
  state : ℕ
  key : List Byte
  val : List Byte
  tmp : Mem

/-- What a line adds to the strings; none if it is refused. -/
def accLine (line : List Byte) (a : Acc) : Option Acc :=
  if a.state = 0 ∧ startsWith line "msgid \"" then
    let (key, n) := extractString line zeros
    match n with
    | none => none
    | some n => some { a with key := cstr key, state := if n = 0 then 1 else 2 }
  else if a.state = 1 ∨ a.state = 2 then
    if startsWith line "msgstr \"" ∨ a.state = 2 then
      let (val, n) := extractString line zeros
      some { a with val := cstr val, state := if n = none then 4 else 3 }
    else
      let (tmp, n) := extractString line a.tmp
      match n with
      | none => some { a with tmp := tmp, state := 2 }
      | some _ => some { a with tmp := tmp, key := a.key ++ cstr tmp }
  else if a.state = 3 then
    let (tmp, n) := extractString line a.tmp
    match n with
    | none => some { a with tmp := tmp, state := 4 }
    | some _ => some { a with tmp := tmp, val := a.val ++ cstr tmp }
  else some a

/-- The strings for the next line. -/
def Acc.next (a : Acc) : Acc :=
  if a.state = 4 then { a with state := 0, key := [], val := [] } else a

/-- The strings fit, and if the entry is written, so do its literals. -/
def RoundFits (line whole : List Byte) (a : Acc) (w : ℕ × ℕ) : Prop :=
  ∀ a', accLine line a = some a' →
    a'.key.length < bufferSize ∧ a'.val.length < bufferSize ∧
      (a'.state = 4 → Stores a'.key a'.val →
        (wanted a.state line whole w).1 < bufferSize ∧ (wanted a.state line whole w).2 < bufferSize)

def Fits : List (List Byte) → Acc → ℕ × ℕ → Prop
  | [], a, w => 2 ≤ a.state → RoundFits [] [] a w
  | line :: lines, a, w =>
      RoundFits (cline line) (cline (wholeLine line lines)) a w ∧
        ∀ a', accLine (cline line) a = some a' → Fits lines a'.next
          (wanted a.state (cline line) (cline (wholeLine line lines)) w)

/-- What the loop keeps: the text starts behind a quote, and an escape has been written. -/
def Behind (pos : ℕ) (off : Option ℕ) (esc : Bool) : Prop :=
  (off = none → esc = false) ∧ ∀ o, off = some o → 1 ≤ o ∧ o + esc.toNat ≤ pos

theorem behind_some {pos o : ℕ} {esc : Bool} (hpos : 1 ≤ o) (h : o + esc.toNat ≤ pos) :
    Behind pos (some o) esc :=
  ⟨fun hnone => absurd hnone (by simp), fun _ ho => Option.some.inj ho ▸ ⟨hpos, h⟩⟩

theorem behind_quote (pos : ℕ) (c : Byte) :
    Behind (pos + 1) (if c = quote then some (pos + 1) else none) false := by
  by_cases hc : c = quote
  · rw [if_pos hc]
    exact behind_some (Nat.le_add_left 1 pos) (Nat.le_refl _)
  · rw [if_neg hc]
    exact ⟨fun _ => rfl, fun o ho => absurd ho (by simp)⟩

/-- The loop writes in front of the last byte of the buffer. -/
theorem extractWrites_bounds (src : List Byte) {pos : ℕ} {off : Option ℕ} {esc : Bool}
    (h : Behind pos off esc) :
    ∀ i ∈ extractWrites src pos off esc, 0 ≤ i ∧ i + 1 < bufferSize := by
  have hcons : ∀ (i : ℤ) (l : List ℤ), (0 ≤ i ∧ i + 1 < bufferSize) →
      (∀ j ∈ l, 0 ≤ j ∧ j + 1 < bufferSize) → ∀ j ∈ i :: l, 0 ≤ j ∧ j + 1 < bufferSize := by
    intro i l hi hl j hj
    rcases List.mem_cons.mp hj with rfl | hj
    · exact hi
    · exact hl j hj
  induction src generalizing pos off esc with
  | nil => exact fun i hi => absurd hi List.not_mem_nil
  | cons c src ih =>
    cases off with
    | none =>
      obtain rfl := h.1 rfl
      rw [extractWrites]
      by_cases hend : bufferSize ≤ pos
      · rw [if_pos hend]
        exact fun i hi => absurd hi List.not_mem_nil
      · rw [if_neg hend]
        exact ih (behind_quote pos c)
    | some o =>
      obtain ⟨hone, hle⟩ := h.2 o rfl
      rw [extractWrites]
      by_cases hend : bufferSize ≤ pos
      · rw [if_pos hend]
        exact fun i hi => absurd hi List.not_mem_nil
      · rw [if_neg hend]
        cases esc with
        | true =>
          change o + 1 ≤ pos at hle
          dsimp only
          rw [if_pos rfl]
          by_cases hescape : c = quote ∨ c = backslash
          · rw [if_pos hescape]
            exact hcons _ _ ⟨by omega, by omega⟩
              (ih (behind_some (Nat.le_add_left 1 o) (Nat.le_succ_of_le hle)))
          · rw [if_neg hescape]
            exact hcons _ _ ⟨by omega, by omega⟩
              (ih (behind_some hone (show o + 0 ≤ pos + 1 by omega)))
        | false =>
          change o + 0 ≤ pos at hle
          dsimp only
          rw [if_neg Bool.false_ne_true]
          by_cases hbackslash : c = backslash
          · rw [if_pos hbackslash]
            exact hcons _ _ ⟨by omega, by omega⟩
              (ih (behind_some hone (show o + 1 ≤ pos + 1 by omega)))
          · rw [if_neg hbackslash]
            by_cases hquote : c = quote
            · rw [if_pos hquote]
              exact hcons _ _ ⟨by omega, by omega⟩ fun j hj => absurd hj List.not_mem_nil
            · rw [if_neg hquote]
              exact hcons _ _ ⟨by omega, by omega⟩
                (ih (behind_some hone (show o + 0 ≤ pos + 1 by omega)))

theorem update_elsewhere {pos o i : ℕ} (c : Byte) (dest : Mem) {l : List ℤ} (ho : o ≤ pos)
    (hi : (i : ℤ) ∉ ((pos : ℤ) - o) :: l) :
    Function.update dest (pos - o) c i = dest i ∧ (i : ℤ) ∉ l := by
  rw [List.mem_cons, not_or] at hi
  exact ⟨Function.update_of_ne (by omega) _ _, hi.2⟩

/-- The buffer changes where the loop writes and nowhere else. -/
theorem extractLoop_frame (src : List Byte) {pos : ℕ} {off : Option ℕ} {esc : Bool} (dest : Mem)
    (h : Behind pos off esc) {i : ℕ} (hi : (i : ℤ) ∉ extractWrites src pos off esc) :
    (extractLoop src pos off esc dest).1 i = dest i := by
  induction src generalizing pos off esc dest with
  | nil => rfl
  | cons c src ih =>
    cases off with
    | none =>
      obtain rfl := h.1 rfl
      rw [extractWrites] at hi
      rw [extractLoop]
      by_cases hend : bufferSize ≤ pos
      · rw [if_pos hend]
      · rw [if_neg hend] at hi ⊢
        exact ih dest (behind_quote pos c) hi
    | some o =>
      obtain ⟨hone, hle⟩ := h.2 o rfl
      rw [extractWrites] at hi
      rw [extractLoop]
      by_cases hend : bufferSize ≤ pos
      · rw [if_pos hend]
      · rw [if_neg hend] at hi ⊢
        cases esc with
        | true =>
          change o + 1 ≤ pos at hle
          dsimp only at hi ⊢
          rw [if_pos rfl] at hi ⊢
          by_cases hescape : c = quote ∨ c = backslash
          · rw [if_pos hescape] at hi ⊢
            obtain ⟨hsame, hrest⟩ := update_elsewhere c dest hle hi
            exact (ih _ (behind_some (Nat.le_add_left 1 o) (Nat.le_succ_of_le hle)) hrest).trans
              hsame
          · rw [if_neg hescape] at hi ⊢
            obtain ⟨hsame, hrest⟩ := update_elsewhere c dest (by omega) hi
            exact (ih _ (behind_some hone (show o + 0 ≤ pos + 1 by omega)) hrest).trans hsame
        | false =>
          change o + 0 ≤ pos at hle
          dsimp only at hi ⊢
          rw [if_neg Bool.false_ne_true] at hi ⊢
          by_cases hbackslash : c = backslash
          · rw [if_pos hbackslash] at hi ⊢
            obtain ⟨hsame, hrest⟩ := update_elsewhere c dest hle hi
            exact (ih _ (behind_some hone (show o + 1 ≤ pos + 1 by omega)) hrest).trans hsame
          · rw [if_neg hbackslash] at hi ⊢
            by_cases hquote : c = quote
            · rw [if_pos hquote] at hi ⊢
              exact (update_elsewhere 0 dest hle hi).1
            · rw [if_neg hquote] at hi ⊢
              obtain ⟨hsame, hrest⟩ := update_elsewhere c dest hle hi
              exact (ih _ (behind_some hone (show o + 0 ≤ pos + 1 by omega)) hrest).trans hsame

theorem cstr_length (m : Mem) : (cstr m).length = strlen m :=
  (slice_length m 0 (strlen m)).trans (Nat.sub_zero _)

theorem cstr_getElem (m : Mem) {i : ℕ} (hi : i < (cstr m).length) : (cstr m)[i] = m i :=
  (slice_getElem m 0 (strlen m) hi).trans (congrArg m (Nat.zero_add i))

/-- A buffer that ends in front of its last byte holds a string. -/
theorem cstr_of_lt {m : Mem} (h : strlen m < bufferSize) : CStr m (cstr m) := by
  refine ⟨fun i hi => (cstr_getElem m hi).symm, ?_, fun hzero => ?_, ?_⟩
  · have hroom : strlen m < 0 + bufferSize := by rwa [Nat.zero_add]
    have hstop := skip_stop (p := fun b => b != 0) (m := m) bufferSize 0 hroom
    rw [cstr_length]
    exact bne_eq_false_iff_eq.mp hstop
  · obtain ⟨i, hi, hget⟩ := List.mem_iff_getElem.mp hzero
    have hlt : i < strlen m := by rwa [cstr_length] at hi
    have hall := skip_all (p := fun b => b != 0) (m := m) bufferSize 0 (Nat.zero_le i) hlt
    rw [← cstr_getElem m hi, hget] at hall
    exact absurd hall (by decide)
  · rwa [cstr_length]

/-- What is read into an empty buffer ends in it. -/
theorem extract_zeros (line : List Byte) : strlen (extractString line zeros).1 < bufferSize := by
  have hstart : Behind 0 none false := ⟨fun _ => rfl, fun o ho => absurd ho (by simp)⟩
  have hlast : (extractString line zeros).1 (bufferSize - 1) = 0 := by
    refine extractLoop_frame line zeros hstart fun hmem => ?_
    have hbounds := extractWrites_bounds line hstart _ hmem
    unfold bufferSize at hbounds
    omega
  by_contra hfull
  have hlt : bufferSize - 1 < strlen (extractString line zeros).1 :=
    Nat.lt_of_lt_of_le (by decide) (Nat.le_of_not_lt hfull)
  have hall := skip_all (p := fun b => b != 0) (m := (extractString line zeros).1) bufferSize 0
    (Nat.zero_le (bufferSize - 1)) hlt
  rw [hlast] at hall
  exact absurd hall (by decide)

/-- The strings stand in their buffers. -/
structure Tracks (s : PoState) (a : Acc) : Prop where
  state : s.state = a.state
  key : CStr s.key a.key
  val : CStr s.val a.val
  tmp : s.tmp = a.tmp
  idle : a.state = 0 → s.key = zeros
  fresh : a.state ≤ 2 → s.val = zeros

theorem strcat_fits {m tmp : Mem} {k : List Byte} (h : CStr m k)
    (hroom : (k ++ cstr tmp).length < bufferSize) :
    ∃ m', strcat m tmp = some m' ∧ CStr m' (k ++ cstr tmp) := by
  have hlen := hroom
  rw [List.length_append, cstr_length] at hlen
  exact h.strcat (cstr_of_lt (by omega)) hroom

theorem strcat_overrun {m tmp : Mem} {k : List Byte} (h : CStr m k)
    (hfull : ¬(k ++ cstr tmp).length < bufferSize) : strcat m tmp = none := by
  rw [List.length_append, cstr_length] at hfull
  rw [Po2lmo.strcat, h.strlen]
  exact if_neg hfull

section

variable {s : PoState} {a : Acc}

/-- Either the line is refused, or the strings fit and are put together in the buffers, or
one of them does not fit and the buffer is overrun. -/
theorem scanLine_tracks (h : Tracks s a) (line : List Byte) :
    (accLine line a = none ∧ scanLine line s = .error .died) ∨
    ∃ a', accLine line a = some a' ∧
      ((a'.key.length < bufferSize ∧ a'.val.length < bufferSize ∧
          ∃ s', scanLine line s = .ok s' ∧ Tracks s' a') ∨
        (¬(a'.key.length < bufferSize ∧ a'.val.length < bufferSize) ∧
          scanLine line s = .error .overrun)) := by
  have hkey := h.key.room
  have hval := h.val.room
  have hzeros := extract_zeros line
  unfold accLine scanLine
  rw [h.state]
  by_cases hid : a.state = 0 ∧ startsWith line "msgid \"" = true
  · rw [if_pos hid, if_pos hid, h.idle hid.1]
    obtain ⟨key, n, hp⟩ : ∃ key n, extractString line zeros = (key, n) := ⟨_, _, rfl⟩
    rw [hp] at hzeros ⊢
    cases n with
    | none => exact Or.inl ⟨rfl, rfl⟩
    | some n =>
      have hstr := cstr_of_lt hzeros
      refine Or.inr ⟨_, rfl, Or.inl ⟨hstr.room, hval, ?_⟩⟩
      cases n with
      | zero =>
        exact ⟨_, rfl, rfl, hstr, h.val, h.tmp, fun h0 => absurd h0 (by simp),
          fun _ => h.fresh (by omega)⟩
      | succ n =>
        exact ⟨_, rfl, rfl, hstr, h.val, h.tmp, fun h0 => absurd h0 (by simp),
          fun _ => h.fresh (by omega)⟩
  · rw [if_neg hid, if_neg hid]
    by_cases hopen : a.state = 1 ∨ a.state = 2
    · rw [if_pos hopen, if_pos hopen]
      by_cases hstr : startsWith line "msgstr \"" = true ∨ a.state = 2
      · rw [if_pos hstr, if_pos hstr, h.fresh (by omega)]
        have hvalue := cstr_of_lt hzeros
        refine Or.inr ⟨_, rfl, Or.inl ⟨hkey, hvalue.room, _, rfl, rfl, h.key, hvalue, h.tmp,
          fun h0 => ?_, fun hle => ?_⟩⟩
        · dsimp only at h0
          split at h0 <;> omega
        · dsimp only at hle
          split at hle <;> omega
      · rw [if_neg hstr, if_neg hstr, h.tmp]
        obtain ⟨tmp, n, hp⟩ : ∃ tmp n, extractString line a.tmp = (tmp, n) := ⟨_, _, rfl⟩
        rw [hp]
        cases n with
        | none =>
          exact Or.inr ⟨_, rfl, Or.inl ⟨hkey, hval, _, rfl, rfl, h.key, h.val, rfl,
            fun h0 => absurd h0 (by simp), fun _ => h.fresh (by omega)⟩⟩
        | some n =>
          refine Or.inr ⟨_, rfl, ?_⟩
          by_cases hroom : (a.key ++ cstr tmp).length < bufferSize
          · obtain ⟨key, hcat, hcstr⟩ := strcat_fits h.key hroom
            refine Or.inl ⟨hroom, hval, { s with tmp := tmp, key := key }, ?_, h.state, hcstr,
              h.val, rfl, fun h0 => ?_, h.fresh⟩
            · dsimp only
              rw [hcat, h.state]
            · change a.state = 0 at h0
              omega
          · refine Or.inr ⟨fun hboth => hroom hboth.1, ?_⟩
            dsimp only
            rw [strcat_overrun h.key hroom]
    · rw [if_neg hopen, if_neg hopen]
      by_cases hthree : a.state = 3
      · rw [if_pos hthree, if_pos hthree, h.tmp]
        obtain ⟨tmp, n, hp⟩ : ∃ tmp n, extractString line a.tmp = (tmp, n) := ⟨_, _, rfl⟩
        rw [hp]
        cases n with
        | none =>
          exact Or.inr ⟨_, rfl, Or.inl ⟨hkey, hval, _, rfl, rfl, h.key, h.val, rfl,
            fun h0 => absurd h0 (by simp), fun hle => absurd hle (by simp)⟩⟩
        | some n =>
          refine Or.inr ⟨_, rfl, ?_⟩
          by_cases hroom : (a.val ++ cstr tmp).length < bufferSize
          · obtain ⟨val, hcat, hcstr⟩ := strcat_fits h.val hroom
            refine Or.inl ⟨hkey, hroom, { s with tmp := tmp, val := val }, ?_, h.state, h.key,
              hcstr, rfl, fun h0 => ?_, fun hle => ?_⟩
            · dsimp only
              rw [hcat, h.state]
            · change a.state = 0 at h0
              omega
            · change a.state ≤ 2 at hle
              omega
          · refine Or.inr ⟨fun hboth => hroom hboth.2, ?_⟩
            dsimp only
            rw [strcat_overrun h.val hroom]
      · rw [if_neg hthree, if_neg hthree]
        exact Or.inr ⟨a, rfl, Or.inl ⟨hkey, hval, s, rfl, h⟩⟩

/-- A line that the buffers survive, and that writes no entry that is too long. -/
theorem round_iff (h : Tracks s a) (line whole : List Byte) (w : ℕ × ℕ) :
    scanLine line s ≠ .error .overrun ∧ RoundWhole line whole s w ↔ RoundFits line whole a w := by
  unfold RoundWhole RoundFits
  rcases scanLine_tracks h line with ⟨hnone, hdied⟩ | ⟨a', hsome, hfits | ⟨hfull, hover⟩⟩
  · rw [hnone, hdied]
    simp
  · obtain ⟨hkey, hval, s', hok, ht⟩ := hfits
    rw [hsome, hok, h.state]
    constructor
    · rintro ⟨-, hwhole⟩ b hb
      obtain rfl := Option.some.inj hb
      have := hwhole s' rfl
      rw [ht.state, ht.key.cstr, ht.val.cstr] at this
      exact ⟨hkey, hval, this⟩
    · intro hround
      refine ⟨by simp, fun t htok => ?_⟩
      obtain rfl := Except.ok.inj htok
      rw [ht.state, ht.key.cstr, ht.val.cstr]
      exact (hround a' rfl).2.2
  · rw [hsome, hover]
    refine ⟨fun hno => absurd rfl hno.1, fun hround => ?_⟩
    obtain ⟨hkey, hval, -⟩ := hround a' rfl
    exact absurd ⟨hkey, hval⟩ hfull

theorem storeEntry_tmp (s : PoState) : (storeEntry s).tmp = s.tmp := by
  unfold storeEntry
  dsimp only
  split <;> rfl

/-- The strings for the next line are in the buffers again. -/
theorem next_tracks {s' : PoState} {a' : Acc} (h : Tracks s' a') {line : List Byte}
    (hline : scanLine (cline line) s = .ok s') :
    ∃ s'', scan line s = .ok s'' ∧ Tracks s'' a'.next := by
  unfold Acc.next
  by_cases hstate : a'.state = 4
  · rw [if_pos hstate]
    refine ⟨_, scan_store hline (h.state.trans hstate), rfl, CStr.zeros, CStr.zeros, ?_,
      fun _ => rfl, fun _ => rfl⟩
    exact (storeEntry_tmp s').trans h.tmp
  · rw [if_neg hstate]
    exact ⟨s', scan_line hline (by rwa [h.state]), h⟩

theorem scan_overrun (line : List Byte) (s : PoState) :
    scan line s = .error .overrun ↔ scanLine (cline line) s = .error .overrun := by
  unfold scan
  rw [show (line.takeWhile fun b => b != 0) = cline line from rfl]
  cases scanLine (cline line) s with
  | error e => exact Iff.rfl
  | ok s' =>
    refine ⟨fun h => ?_, fun h => absurd h (by simp)⟩
    change (if s'.state = 4 then Except.ok (storeEntry s') else Except.ok s') = _ at h
    split at h
    · exact absurd h (by simp)
    · exact absurd h (by simp)

/-- A whole run against the strings without a bound. -/
theorem runs_iff (lines : List (List Byte)) {s : PoState} {a : Acc} (h : Tracks s a)
    (w : ℕ × ℕ) :
    scanAll lines s ≠ .error .overrun ∧ StoresWhole lines s w ↔ Fits lines a w := by
  induction lines generalizing s a w with
  | nil =>
    rw [scanAll, StoresWhole, Fits, h.state]
    by_cases hopen : 2 ≤ a.state
    · rw [if_pos hopen]
      have hround := round_iff h [] [] w
      have hover : scan [] s = .error .overrun ↔ scanLine [] s = .error .overrun :=
        scan_overrun [] s
      rw [Ne, hover]
      exact ⟨fun hno _ => hround.mp ⟨hno.1, hno.2 hopen⟩, fun hfits =>
        ⟨(hround.mpr (hfits hopen)).1, fun _ => (hround.mpr (hfits hopen)).2⟩⟩
    · rw [if_neg hopen]
      exact ⟨fun _ hle => absurd hle hopen, fun _ => ⟨by simp, fun hle => absurd hle hopen⟩⟩
  | cons line lines ih =>
    have hround := round_iff h (cline line) (cline (wholeLine line lines)) w
    rw [StoresWhole, Fits, ← hround, h.state]
    rcases scanLine_tracks h (cline line) with
      ⟨hnone, hdied⟩ | ⟨a', hsome, ⟨-, -, s', hok, ht⟩ | ⟨-, hover⟩⟩
    · have hscan : scan line s = .error .died := by
        unfold scan
        rw [show scanLine (line.takeWhile fun b => b != 0) s = .error .died from hdied]
        rfl
      have hall : scanAll (line :: lines) s = .error .died := by
        rw [scanAll, hscan]
        rfl
      rw [hall, hscan, hdied, hnone]
      simp
    · obtain ⟨s'', hscan, ht'⟩ := next_tracks ht hok
      rw [scanAll_cons hscan, hscan, hok, hsome]
      have hrest := ih ht' (wanted a.state (cline line) (cline (wholeLine line lines)) w)
      constructor
      · rintro ⟨hno, hwhole, hstores⟩
        refine ⟨⟨by simp, hwhole⟩, fun b hb => ?_⟩
        obtain rfl := Option.some.inj hb
        exact hrest.mp ⟨hno, hstores s'' rfl⟩
      · rintro ⟨⟨-, hwhole⟩, hfits⟩
        obtain ⟨hno, hstores⟩ := hrest.mpr (hfits a' rfl)
        refine ⟨hno, hwhole, fun t htok => ?_⟩
        obtain rfl := Except.ok.inj htok
        exact hstores
    · have hscan := (scan_overrun line s).mpr hover
      have hall : scanAll (line :: lines) s = .error .overrun := by
        rw [scanAll, hscan]
        rfl
      rw [hall, hover]
      simp

end

theorem po2lmo_overrun (stack : Mem) (input : List Byte) :
    po2lmo stack input = .error .overrun ↔
      scanAll (linesOf input) ⟨zeros, zeros, stack, 0, 0, [], []⟩ = .error .overrun := by
  unfold po2lmo
  rw [show fgetsLines [] (bufferSize - 1) input = linesOf input from rfl]
  cases scanAll (linesOf input) ⟨zeros, zeros, stack, 0, 0, [], []⟩ with
  | error e =>
    constructor
    · intro h
      rw [show e = .overrun from Except.error.inj h]
    · intro h
      rw [Except.error.inj h]
      rfl
  | ok s =>
    refine ⟨fun h => ?_, fun h => absurd h (by simp)⟩
    exact absurd (show Except.ok _ = Except.error Stop.overrun from h) (by simp)

/-- Exactly the inputs whose strings all fit when they are put together, and whose written
entries have no literal that was cut for its length, are converted right. -/
theorem po2lmo_buffers_iff (stack : Mem) (input : List Byte) :
    Right stack input ↔ Fits (linesOf input) ⟨0, [], [], stack⟩ (0, 0) := by
  have hstart : Tracks ⟨zeros, zeros, stack, 0, 0, [], []⟩ ⟨0, [], [], stack⟩ :=
    ⟨rfl, CStr.zeros, CStr.zeros, rfl, fun _ => rfl, fun _ => rfl⟩
  rw [← runs_iff (linesOf input) hstart (0, 0), Ne, ← po2lmo_overrun]
  refine ⟨fun h => ⟨h.append, h.whole⟩, fun h => ⟨fun line _ i hi => ?_, h.1, h.2⟩⟩
  have hbounds := extractWrites_bounds (cline line)
    ⟨fun _ => rfl, fun o ho => absurd ho (by simp)⟩ i hi
  unfold bufferSize at hbounds ⊢
  omega

theorem literalLine_length (l : Literal) : (literalLine "" l).length = l.bytes.length + 3 := by
  unfold literalLine
  rw [List.length_append, List.length_cons, List.length_append]
  exact Nat.zero_add _

/-- A key whose second line does not fit behind its first one. -/
theorem key_overrun (stack : Mem) {l l' : Literal} (hl : (literalLine "" l).length < bufferSize)
    (hl' : (literalLine "" l').length < bufferSize)
    (hsum : bufferSize ≤ l.text.length + l'.text.length) :
    ¬Right stack [literalLine "msgid " [], literalLine "" l, literalLine "" l'].flatten := by
  have hlines : linesOf [literalLine "msgid " [], literalLine "" l, literalLine "" l'].flatten =
      [literalLine "msgid " [], literalLine "" l, literalLine "" l'] := by
    refine fgetsLines_flatten fun line hline => ?_
    simp only [List.mem_cons, List.not_mem_nil, or_false] at hline
    rcases hline with rfl | rfl | rfl
    · exact ⟨by decide, literalLine_oneLine [] (by decide)⟩
    · exact ⟨hl, literalLine_oneLine _ (by decide)⟩
    · exact ⟨hl', literalLine_oneLine _ (by decide)⟩
  obtain ⟨s1, hscan1, hread1⟩ := scan_key (l := [])
    (show Ready ⟨zeros, zeros, stack, 0, 0, [], []⟩ from ⟨rfl, rfl, rfl⟩) (by decide)
  have hroom : ([] ++ l.text).length < bufferSize := by
    have := text_length l
    rw [literalLine_length] at hl
    rw [List.nil_append]
    omega
  obtain ⟨s2, hscan2, hread2⟩ := scan_keyMore l hread1 hl hroom
  obtain ⟨tmp, hextract, htmp⟩ := extract_literal l' s2.tmp
    (show quote ∉ ascii "" by decide) hl'
  have hcat : strcat s2.key tmp = none := by
    refine strcat_overrun hread2.key ?_
    rw [htmp.cstr, List.length_append]
    exact Nat.not_lt_of_le hsum
  have hover : scan (literalLine "" l') s2 = .error .overrun := by
    rw [scan_overrun, cline, literalLine_clean _ (by decide)]
    simp [scanLine, hread2.state, startsWith_more, hextract, hcat]
  intro h
  refine h.append ?_
  rw [po2lmo_overrun, hlines, scanAll_cons hscan1, scanAll_cons hscan2, scanAll, hover]
  rfl

theorem letter_plain : (0x78 : Byte) ≠ 0 ∧ (0x78 : Byte) ≠ newline ∧ (0x78 : Byte) ≠ quote ∧
    (0x78 : Byte) ≠ backslash := by decide

/-- A literal of some letters. -/
def letters (n : ℕ) : Literal := List.replicate n (.plain 0x78 letter_plain)

theorem letters_length (n : ℕ) : (letters n).bytes.length = n ∧ (letters n).text.length = n := by
  induction n with
  | zero => exact ⟨rfl, rfl⟩
  | succ n ih => exact ⟨congrArg Nat.succ ih.1, congrArg Nat.succ ih.2⟩

/-- The second strcat of a key of two lines with 2048 letters each writes behind the key. -/
theorem long_key_overrun : ¬Right zeros [literalLine "msgid " [],
    literalLine "" (letters 2048), literalLine "" (letters 2048)].flatten :=
  have hline : (literalLine "" (letters 2048)).length < bufferSize := by
    rw [literalLine_length, (letters_length 2048).1]
    decide
  key_overrun zeros hline hline (by rw [(letters_length 2048).2]; decide)

end Iot7688.Po2lmo
