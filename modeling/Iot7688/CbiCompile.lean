import Iot7688.CbiDatatype

/-!
What compile_datatype makes of a spelled expression. The text since the last position is
the label; inside of parentheses everything goes into it, and at the outer level a comma
or a parenthesis ends it. A blank behind a parenthesis that closes is a label without a
name, so the text is refused.
-/
namespace Iot7688.Cbi

open Lib Lua

/-- The loop over the rest of a text, with the text since the last position. -/
def scan (dt : Datatypes) (compile : Str → Except Failure (List Slot)) (start : Bool) (acc : Str)
    (esc : Bool) (depth : ℤ) (stack : List Slot) : Str → Except Failure (List Slot)
  | [] =>
      if esc then .ok stack
      else if depth ≤ 0 then if start ∨ acc ≠ [] then pushLabel dt stack acc else .ok stack
      else .ok stack
  | c :: rest =>
      if esc then scan dt compile start (acc ++ [c]) false depth stack rest
      else if c = backslash then scan dt compile start (acc ++ [c]) true depth stack rest
      else if c = paren ∨ c = comma then
        if depth ≤ 0 then
          if start ∨ acc ≠ [] then
            (pushLabel dt stack acc).bind fun stack =>
              scan dt compile false [] false (depth + if c = paren then 1 else 0) stack rest
          else scan dt compile false [] false (depth + if c = paren then 1 else 0) stack rest
        else
          scan dt compile start (acc ++ [c]) false (depth + if c = paren then 1 else 0) stack rest
      else if c = closing then
        if depth - 1 ≤ 0 then
          (fillArgs stack (compile acc)).bind fun stack =>
            scan dt compile false [] false (depth - 1) stack rest
        else scan dt compile start (acc ++ [c]) false (depth - 1) stack rest
      else scan dt compile start (acc ++ [c]) false depth stack rest

section

variable {dt : Datatypes} {compile : Str → Except Failure (List Slot)}

theorem sub_snoc {front rest : Str} {c : Byte} {first : ℕ} (h : first ≤ front.length + 1) :
    sub (front ++ c :: rest) first (front.length + 1) =
      sub (front ++ c :: rest) first front.length ++ [c] := by
  have htake : (front ++ c :: rest).take (front.length + 1) = front ++ [c] := by
    rw [List.take_append, List.take_of_length_le (Nat.le_succ _), Nat.add_sub_cancel_left]
    rfl
  have hfront : (front ++ c :: rest).take front.length = front := List.take_left
  rw [sub, sub, htake, hfront, List.drop_append_of_le_length (by omega)]

theorem sub_nil {code : Str} {last : ℕ} : sub code (last + 1) last = [] := by
  rw [sub, List.drop_eq_nil_iff]
  exact (List.length_take_le _ _).trans (by omega)

theorem sub_ne_nil {front rest : Str} {first : ℕ} (h : 0 < first) :
    first < front.length + 1 ↔ sub (front ++ rest) first front.length ≠ [] := by
  have hfront : (front ++ rest).take front.length = front := List.take_left
  rw [sub, hfront, Ne, List.drop_eq_nil_iff]
  omega

theorem pos_lt_iff {front rest : Str} {first : ℕ} :
    first < front.length + 1 ↔
      decide (first = 0) = true ∨ sub (front ++ rest) first front.length ≠ [] := by
  rw [decide_eq_true_iff]
  obtain rfl | hpos := Nat.eq_zero_or_pos first
  · exact ⟨fun _ => Or.inl rfl, fun _ => Nat.succ_pos _⟩
  · rw [sub_ne_nil hpos]
    exact ⟨Or.inr, fun h => h.resolve_left hpos.ne'⟩

theorem map_bind {α β γ : Type} (x : Except Failure α) (f : α → β) (g : β → Except Failure γ) :
    (x.map f >>= g) = x.bind fun a => g (f a) := by
  cases x with
  | error e => rfl
  | ok a => rfl

theorem bind_map {α β γ : Type} (x : Except Failure α) (f : α → Except Failure β) (g : β → γ) :
    (x.bind f).map g = x.bind fun a => (f a).map g := by
  cases x with
  | error e => rfl
  | ok a => rfl

theorem ok_bind {α β : Type} (a : α) (f : α → Except Failure β) :
    ((.ok a : Except Failure α) >>= f) = f a := rfl

/-- The loop body for a character. -/
theorem step_char {code : Str} {i : ℕ} {c : Byte} (h : (code[i]?).getD comma = c) (s : Scan) :
    step dt compile code s (i + 1) =
      if s.esc then .ok { s with esc := false }
      else if c = backslash then .ok { s with esc := true }
      else if c = paren ∨ c = comma then
        if s.depth ≤ 0 then
          if s.pos < i + 1 then
            (pushLabel dt s.stack (sub code s.pos i)).map fun stack =>
              ⟨i + 1 + 1, false, s.depth + if c = paren then 1 else 0, stack⟩
          else .ok ⟨i + 1 + 1, false, s.depth + if c = paren then 1 else 0, s.stack⟩
        else .ok { s with depth := s.depth + if c = paren then 1 else 0 }
      else if c = closing then
        if s.depth - 1 ≤ 0 then
          (fillArgs s.stack (compile (sub code s.pos i))).map fun stack =>
            ⟨i + 1 + 1, false, s.depth - 1, stack⟩
        else .ok { s with depth := s.depth - 1 }
      else .ok s := by
  unfold step
  rw [Nat.add_sub_cancel, h]

/-- The position of the loop and the text since then say the same. -/
theorem foldlM_step (front rest : Str) {s : Scan} (hpos : s.pos ≤ front.length + 1) :
    (((List.range' (front.length + 1) (rest.length + 1)).foldlM
        (step dt compile (front ++ rest)) s).map Scan.stack) =
      scan dt compile (s.pos = 0) (sub (front ++ rest) s.pos front.length) s.esc s.depth s.stack
        rest := by
  induction rest generalizing front s with
  | nil =>
    have hbyte : ((front ++ [])[front.length]?).getD comma = comma := by simp
    have hcomma : comma ≠ backslash := by decide
    have hend : (List.range' (front.length + 1) (([] : Str).length + 1)) = [front.length + 1] := rfl
    rw [hend, List.foldlM_cons, step_char hbyte, scan]
    cases s.esc with
    | true => rfl
    | false =>
      simp only [Bool.false_eq_true, if_false, if_neg hcomma, or_true, if_true]
      by_cases hdepth : s.depth ≤ 0
      · rw [if_pos hdepth, if_pos hdepth]
        by_cases hlabel : s.pos < front.length + 1
        · rw [if_pos hlabel, if_pos (pos_lt_iff.mp hlabel), map_bind]
          cases pushLabel dt s.stack (sub (front ++ []) s.pos front.length) with
          | error e => rfl
          | ok stack => rfl
        · rw [if_neg hlabel, if_neg fun h => hlabel (pos_lt_iff.mpr h)]
          rfl
      · rw [if_neg hdepth, if_neg hdepth]
        rfl
  | cons c rest ih =>
    have hbyte : ((front ++ c :: rest)[front.length]?).getD comma = c := by simp
    -- the rest of the loop, from any state that the first step may leave
    have hnext (t : Scan) (ht : t.pos ≤ front.length + 1 + 1) :
        (((List.range' (front.length + 1 + 1) (rest.length + 1)).foldlM
            (step dt compile (front ++ c :: rest)) t).map Scan.stack) =
          scan dt compile (t.pos = 0) (sub (front ++ c :: rest) t.pos (front.length + 1)) t.esc
            t.depth t.stack rest := by
      have hlen : (front ++ [c]).length = front.length + 1 := List.length_append
      have h := ih (front ++ [c]) (s := t) (by omega)
      rw [hlen, List.append_assoc] at h
      exact h
    have hstart : (List.range' (front.length + 1) ((c :: rest).length + 1)) =
        (front.length + 1) :: List.range' (front.length + 1 + 1) (rest.length + 1) := rfl
    have hsame : sub (front ++ c :: rest) s.pos (front.length + 1) =
        sub (front ++ c :: rest) s.pos front.length ++ [c] := sub_snoc hpos
    have hdone (esc : Bool) (depth : ℤ) (stack : List Slot) := hnext
      ⟨front.length + 1 + 1, esc, depth, stack⟩ le_rfl
    rw [hstart, List.foldlM_cons, step_char hbyte, scan]
    cases hesc : s.esc with
    | true =>
      rw [if_pos rfl, if_pos rfl, ok_bind, hnext _ (by dsimp only; omega), hsame]
    | false =>
      rw [if_neg Bool.false_ne_true, if_neg Bool.false_ne_true]
      by_cases hslash : c = backslash
      · rw [if_pos hslash, if_pos hslash, ok_bind, hnext _ (by dsimp only; omega), hsame]
      rw [if_neg hslash, if_neg hslash]
      by_cases hopen : c = paren ∨ c = comma
      · rw [if_pos hopen, if_pos hopen]
        by_cases hdepth : s.depth ≤ 0
        · rw [if_pos hdepth, if_pos hdepth]
          by_cases hlabel : s.pos < front.length + 1
          · rw [if_pos hlabel, if_pos (pos_lt_iff.mp hlabel), map_bind, bind_map]
            congr 1
            funext stack
            rw [hdone, sub_nil]
            rfl
          · rw [if_neg hlabel, if_neg fun h => hlabel (pos_lt_iff.mpr h), ok_bind, hdone, sub_nil]
            rfl
        · rw [if_neg hdepth, if_neg hdepth, ok_bind, hnext _ (by dsimp only; omega), hsame]
      rw [if_neg hopen, if_neg hopen]
      by_cases hclose : c = closing
      · rw [if_pos hclose, if_pos hclose]
        by_cases hdepth : s.depth - 1 ≤ 0
        · rw [if_pos hdepth, if_pos hdepth, map_bind, bind_map]
          congr 1
          funext stack
          rw [hdone, sub_nil]
          rfl
        · rw [if_neg hdepth, if_neg hdepth, ok_bind, hnext _ (by dsimp only; omega), hsame]
      · rw [if_neg hclose, if_neg hclose, ok_bind, hnext _ (by omega), hsame, hesc]

theorem compileDatatype_eq (calls : ℕ) (code : Str) :
    compileDatatype dt (calls + 1) code =
      scan dt (compileDatatype dt calls) true [] false 0 [] code := by
  exact foldlM_step [] code (s := ⟨0, false, 0, []⟩) (Nat.zero_le _)

/-- A text that only gets into the label. -/
def Quiet (dt : Datatypes) (compile : Str → Except Failure (List Slot)) (t : Str) : Prop :=
  ∀ (start : Bool) (acc : Str) (depth : ℤ) (stack : List Slot) (rest : Str),
    scan dt compile start acc false depth stack (t ++ rest) =
      scan dt compile start (acc ++ t) false depth stack rest

theorem Quiet.nil : Quiet dt compile [] := by
  intro start acc depth stack rest
  rw [List.nil_append, List.append_nil]

theorem Quiet.append {a b : Str} (ha : Quiet dt compile a) (hb : Quiet dt compile b) :
    Quiet dt compile (a ++ b) := by
  intro start acc depth stack rest
  rw [List.append_assoc, ha, hb, List.append_assoc]

theorem isSpecial_eq_false {c : Byte} (h : isSpecial c = false) :
    c ≠ backslash ∧ c ≠ paren ∧ c ≠ closing ∧ c ≠ comma := by
  simp only [isSpecial, Bool.or_eq_false_iff, beq_eq_false_iff_ne] at h
  exact ⟨h.1.1.1, h.1.1.2, h.1.2, h.2⟩

theorem quiet_char {c : Byte} (h : isSpecial c = false) : Quiet dt compile [c] := by
  obtain ⟨hslash, hparen, hclosing, hcomma⟩ := isSpecial_eq_false h
  intro start acc depth stack rest
  rw [List.singleton_append, scan, if_neg Bool.false_ne_true, if_neg hslash,
    if_neg (not_or.mpr ⟨hparen, hcomma⟩), if_neg hclosing]

theorem quiet_escaped (c : Byte) : Quiet dt compile [backslash, c] := by
  intro start acc depth stack rest
  rw [List.cons_append, List.singleton_append, scan, if_neg Bool.false_ne_true, if_pos rfl, scan,
    if_pos rfl, List.append_assoc]
  rfl

theorem quiet_of_plain {t : Str} (h : ∀ c ∈ t, isSpecial c = false) : Quiet dt compile t := by
  induction t with
  | nil => exact Quiet.nil
  | cons c t ih =>
    obtain ⟨hc, ht⟩ := List.forall_mem_cons.mp h
    exact (quiet_char hc).append (ih ht)

theorem Spelling.quiet {value : Str} (s : Spelling value) : Quiet dt compile s.text := by
  have hescaped := s.escaped
  unfold Spelling.text
  generalize s.chars = chars at hescaped
  induction chars with
  | nil => exact Quiet.nil
  | cons p chars ih =>
    obtain ⟨hp, hrest⟩ := List.forall_mem_cons.mp hescaped
    rw [List.flatMap_cons]
    refine Quiet.append ?_ (ih hrest)
    cases hesc : p.1 with
    | true =>
      rw [if_pos rfl]
      exact quiet_escaped p.2
    | false =>
      rw [if_neg Bool.false_ne_true]
      refine quiet_char (Bool.eq_false_iff.mpr fun hspecial => ?_)
      rw [hp hspecial] at hesc
      cases hesc

theorem isSpecial_of_space {c : Byte} (h : isSpace c = true) : isSpecial c = false := by
  revert c
  have hall : ∀ n : Fin 256, isSpace (UInt8.ofFin n) = true →
      isSpecial (UInt8.ofFin n) = false := by decide +kernel
  exact fun {c} h => hall c.toFin h

theorem Blanks.quiet (b : Blanks) : Quiet dt compile b.val :=
  quiet_of_plain fun c hc => isSpecial_of_space (b.property c hc)

theorem Quote.quiet (q : Quote) : Quiet dt compile [q.byte] := by
  cases q with
  | single => exact quiet_char rfl
  | double => exact quiet_char rfl

theorem quiet_literal (before : Blanks) (q : Quote) {value : Str} (s : Spelling value)
    (after : Blanks) :
    Quiet dt compile (before.val ++ q.byte :: (s.text ++ q.byte :: after.val)) :=
  before.quiet.append (q.quiet.append (s.quiet.append (q.quiet.append after.quiet)))

/-- Inside of parentheses they are counted, and everything is kept. -/
theorem scan_open {start : Bool} {acc : Str} {depth : ℤ} {stack : List Slot} {rest : Str}
    (h : 0 < depth) : scan dt compile start acc false depth stack (paren :: rest) =
      scan dt compile start (acc ++ [paren]) false (depth + 1) stack rest := by
  rw [scan, if_neg Bool.false_ne_true, if_neg (by decide), if_pos (Or.inl rfl),
    if_neg (by omega : ¬depth ≤ 0), if_pos rfl]

theorem scan_comma {start : Bool} {acc : Str} {depth : ℤ} {stack : List Slot} {rest : Str}
    (h : 0 < depth) : scan dt compile start acc false depth stack (comma :: rest) =
      scan dt compile start (acc ++ [comma]) false depth stack rest := by
  rw [scan, if_neg Bool.false_ne_true, if_neg (by decide), if_pos (Or.inr rfl),
    if_neg (by omega : ¬depth ≤ 0), if_neg (by decide), Int.add_zero]

theorem scan_close {start : Bool} {acc : Str} {depth : ℤ} {stack : List Slot} {rest : Str}
    (h : 1 < depth) : scan dt compile start acc false depth stack (closing :: rest) =
      scan dt compile start (acc ++ [closing]) false (depth - 1) stack rest := by
  rw [scan, if_neg Bool.false_ne_true, if_neg (by decide), if_neg (by decide), if_pos rfl,
    if_neg (by omega)]

mutual

/-- A whole expression inside of parentheses gets into the label. -/
theorem scan_deep (e : Syn dt) {start : Bool} {acc : Str} {depth : ℤ} {stack : List Slot}
    {rest : Str} (h : 0 < depth) :
    scan dt compile start acc false depth stack (e.text ++ rest) =
      scan dt compile start (acc ++ e.text) false depth stack rest := by
  match e with
  | .literal before q _ s after =>
    exact quiet_literal before q s after start acc depth stack rest
  | .validator before _ s after =>
    exact (before.quiet.append (s.quiet.append after.quiet)) start acc depth stack rest
  | .many before c s middle first args after =>
    have hname := (before.quiet.append (s.quiet.append middle.quiet) : Quiet dt compile _)
    have htext : (Syn.many before c s middle first args after).text ++ rest =
        (before.val ++ (s.text ++ middle.val)) ++
          paren :: (first.text ++ (tailText args ++ closing :: (after.val ++ rest))) := by
      simp [Syn.text]
    rw [htext, hname, scan_open h, scan_deep first (by omega), scan_deepTail args (by omega),
      scan_close (by omega), Int.add_sub_cancel, after.quiet]
    simp [Syn.text]
  | .list before s middle d after =>
    have hname := (before.quiet.append (s.quiet.append middle.quiet) : Quiet dt compile _)
    have htext : (Syn.list before s middle d after).text ++ rest =
        (before.val ++ (s.text ++ middle.val)) ++
          paren :: (d.text ++ closing :: (after.val ++ rest)) := by
      simp [Syn.text]
    rw [htext, hname, scan_open h, scan_deep d (by omega), scan_close (by omega),
      Int.add_sub_cancel, after.quiet]
    simp [Syn.text]

theorem scan_deepTail (args : List (Syn dt)) {start : Bool} {acc : Str} {depth : ℤ}
    {stack : List Slot} {rest : Str} (h : 0 < depth) :
    scan dt compile start acc false depth stack (tailText args ++ rest) =
      scan dt compile start (acc ++ tailText args) false depth stack rest := by
  match args with
  | [] =>
    rw [tailText, List.nil_append, List.append_nil]
  | e :: args =>
    rw [tailText, List.cons_append, scan_comma h, List.append_assoc, scan_deep e h,
      scan_deepTail args h]
    simp only [List.append_assoc, List.cons_append, List.nil_append]

end

end

variable {dt : Datatypes}

theorem unescape_cons {c : Byte} (hc : c ≠ backslash) (s : Str) :
    unescape (c :: s) = c :: unescape s := by
  cases s with
  | nil => rfl
  | cons d s => exact if_neg hc

theorem unescape_escaped (c : Byte) (s : Str) : unescape (backslash :: c :: s) = c :: unescape s :=
  if_pos rfl

theorem unescape_spelling {value : Str} (s : Spelling value) (t : Str) :
    unescape (s.text ++ t) = value ++ unescape t := by
  have key (chars : List (Bool × Byte)) (h : ∀ p ∈ chars, isSpecial p.2 = true → p.1 = true) :
      unescape ((chars.flatMap fun p => if p.1 then [backslash, p.2] else [p.2]) ++ t) =
        chars.map Prod.snd ++ unescape t := by
    induction chars with
    | nil => rfl
    | cons p chars ih =>
      obtain ⟨hp, hrest⟩ := List.forall_mem_cons.mp h
      rw [List.flatMap_cons, List.append_assoc, List.map_cons, List.cons_append, ← ih hrest]
      cases hesc : p.1 with
      | true => exact unescape_escaped p.2 _
      | false =>
        refine unescape_cons (fun hslash => ?_) _
        rw [hp (by rw [hslash]; rfl)] at hesc
        cases hesc
  exact (key s.chars s.escaped).trans (by rw [s.value_eq])

theorem unescape_blanks (b : Blanks) (t : Str) : unescape (b.val ++ t) = b.val ++ unescape t := by
  obtain ⟨b, hb⟩ := b
  induction b with
  | nil => rfl
  | cons c b ih =>
    obtain ⟨hc, hrest⟩ := List.forall_mem_cons.mp hb
    have hslash : c ≠ backslash := (isSpecial_eq_false (isSpecial_of_space hc)).1
    exact (unescape_cons hslash _).trans (congrArg _ (ih hrest))

theorem unescape_blank (b : Blanks) : unescape b.val = b.val := by
  have h := unescape_blanks b []
  rw [List.append_nil] at h
  exact h.trans (List.append_nil _)

/-- Blanks around a text whose ends are none. -/
theorem trim_blanks (before after : Blanks) {c d : Byte} {x y : Str} (hc : isSpace c = false)
    (hd : isSpace d = false) (h : c :: x = y ++ [d]) :
    trim (before.val ++ (c :: x ++ after.val)) = c :: x := by
  have hfront : (before.val ++ (c :: x ++ after.val)).dropWhile isSpace = c :: x ++ after.val := by
    rw [List.dropWhile_append_of_pos before.property, List.cons_append,
      List.dropWhile_cons_of_neg (by rw [hc]; exact Bool.false_ne_true)]
  have hback : ∀ e ∈ after.val.reverse, isSpace e = true :=
    fun e he => after.property e (List.mem_reverse.mp he)
  rw [trim, hfront, h, List.rdropWhile, List.reverse_append, List.dropWhile_append_of_pos hback,
    List.reverse_append, List.reverse_singleton, List.singleton_append,
    List.dropWhile_cons_of_neg (by rw [hd]; exact Bool.false_ne_true), List.reverse_cons,
    List.reverse_reverse]

theorem trim_of_blank (b : Blanks) : trim b.val = [] := by
  rw [trim, List.dropWhile_eq_nil_iff.mpr b.property]
  rfl

theorem Quote.isSpace (q : Quote) : isSpace q.byte = false := by
  cases q with
  | single => rfl
  | double => rfl

theorem Quote.ne_backslash (q : Quote) : q.byte ≠ backslash := by
  cases q with
  | single => decide
  | double => decide

theorem Quote.byte_eq (q : Quote) : q.byte = quote ∨ q.byte = apostrophe := by
  cases q with
  | single => exact Or.inr rfl
  | double => exact Or.inl rfl

/-- The label of a literal is its text between the quotes. -/
theorem pushLabel_literal (before : Blanks) (q : Quote) {value : Str} (s : Spelling value)
    (after : Blanks) (stack : List Slot) :
    pushLabel dt stack (before.val ++ q.byte :: (s.text ++ q.byte :: after.val)) =
      .ok (stack ++ [.text value]) := by
  have hlabel : trim (unescape (before.val ++ q.byte :: (s.text ++ q.byte :: after.val))) =
      q.byte :: (value ++ [q.byte]) := by
    rw [unescape_blanks, unescape_cons q.ne_backslash, unescape_spelling,
      unescape_cons q.ne_backslash, unescape_blank]
    have hends : q.byte :: (value ++ [q.byte]) = (q.byte :: value) ++ [q.byte] := rfl
    have h := trim_blanks before after q.isSpace q.isSpace hends
    simpa only [List.cons_append, List.append_assoc, List.nil_append] using h
  have hlast : (q.byte :: (value ++ [q.byte])).getLast? = some q.byte := by
    rw [← List.cons_append]
    exact List.getLast?_concat
  have hquoted : quoted q.byte (q.byte :: (value ++ [q.byte])) = true := by
    simp [quoted, hlast]
  have hcases : quoted apostrophe (q.byte :: (value ++ [q.byte])) = true ∨
      quoted quote (q.byte :: (value ++ [q.byte])) = true := by
    rcases q.byte_eq with hq | hq
    · exact Or.inr (hq ▸ hquoted)
    · exact Or.inl (hq ▸ hquoted)
  have hnumber : ¬((q.byte :: (value ++ [q.byte])).length > 0 ∧
      dt.isNumber (q.byte :: (value ++ [q.byte])) = true) := fun h => by
    have := h.2
    rw [dt.unquoted _ _ q.byte_eq] at this
    cases this
  have hunquote : unquote (q.byte :: (value ++ [q.byte])) = value := List.dropLast_concat
  unfold pushLabel
  dsimp only
  rw [hlabel, if_neg hnumber, if_pos hcases, hunquote]

theorem quoted_false {q : Byte} {label : Str} (h : q ∉ label) : quoted q label = false := by
  cases label with
  | nil => rfl
  | cons c label =>
    have hne : ¬(c :: label).head? = some q := fun heq => h (by
      rw [← Option.some.inj heq]
      exact List.mem_cons_self ..)
    simp only [quoted, decide_eq_false hne, Bool.and_false, Bool.false_and]

/-- The label of a function is its name. -/
theorem pushLabel_function (before : Blanks) {name : Str} (s : Spelling name) (after : Blanks)
    (h : dt.isFunction name = true) (stack : List Slot) :
    pushLabel dt stack (before.val ++ (s.text ++ after.val)) =
      .ok (stack ++ [.func name, .table []]) := by
  obtain ⟨hne, hnumber, hchars⟩ := dt.identifier name h
  obtain ⟨c, x, hcons⟩ := List.exists_cons_of_ne_nil hne
  obtain ⟨y, d, hconcat⟩ := (List.eq_nil_or_concat name).resolve_left hne
  have hlabel : trim (unescape (before.val ++ (s.text ++ after.val))) = name := by
    have hc : isSpace c = false := (hchars c (hcons ▸ List.mem_cons_self ..)).1
    have hd : isSpace d = false := (hchars d (by rw [hconcat]; simp)).1
    rw [unescape_blanks, unescape_spelling, unescape_blank]
    have htrim := trim_blanks before after hc hd (x := x) (y := y)
      (by rw [← hcons, hconcat, List.concat_eq_append])
    rwa [← hcons] at htrim
  have hquote : quoted quote name = false := quoted_false fun hmem => (hchars _ hmem).2.1 rfl
  have happ : quoted apostrophe name = false := quoted_false fun hmem => (hchars _ hmem).2.2 rfl
  unfold pushLabel
  dsimp only
  rw [hlabel, hnumber, hquote, happ, if_neg (by simp), if_neg (by simp), if_pos h]

/-- Blanks alone are a label without a name. -/
theorem pushLabel_blank (b : Blanks) (stack : List Slot) :
    pushLabel dt stack b.val = .error (.badToken []) := by
  have hnone : ¬dt.isFunction [] = true := fun h => (dt.identifier [] h).1 rfl
  unfold pushLabel
  dsimp only
  rw [unescape_blank, trim_of_blank, if_neg (fun h => absurd h.1 (Nat.lt_irrefl 0)),
    if_neg (by simp [quoted]), if_neg hnone]

/-- A result that is there exactly for tight spellings. -/
def Outcome (r : Except Failure (List Slot)) (tight : Prop) (out : List Slot) : Prop :=
  tight ∧ r = .ok out ∨ ¬tight ∧ ∃ e, r = .error e

/-- What a comma or the end does at the outer level. -/
def ended (dt : Datatypes) (start : Bool) (acc : Str) (stack : List Slot) :
    Except Failure (List Slot) :=
  if start ∨ acc ≠ [] then pushLabel dt stack acc else .ok stack

section

variable {compile : Str → Except Failure (List Slot)}

theorem scan_end (start : Bool) (acc : Str) (stack : List Slot) :
    scan dt compile start acc false 0 stack [] = ended dt start acc stack := by
  rw [scan, if_neg Bool.false_ne_true, if_pos (by decide : (0 : ℤ) ≤ 0)]
  rfl

theorem scan_comma_outer (start : Bool) (acc : Str) (stack : List Slot) (rest : Str) :
    scan dt compile start acc false 0 stack (comma :: rest) =
      (ended dt start acc stack).bind fun stack => scan dt compile false [] false 0 stack rest := by
  rw [scan, if_neg Bool.false_ne_true, if_neg (by decide), if_pos (Or.inr rfl),
    if_pos (by decide : (0 : ℤ) ≤ 0)]
  unfold ended
  split
  · rfl
  · rfl

theorem scan_paren_outer (start : Bool) {acc : Str} (hacc : acc ≠ []) (stack : List Slot)
    (rest : Str) : scan dt compile start acc false 0 stack (paren :: rest) =
      (pushLabel dt stack acc).bind fun stack => scan dt compile false [] false 1 stack rest := by
  rw [scan, if_neg Bool.false_ne_true, if_neg (by decide), if_pos (Or.inl rfl),
    if_pos (by decide : (0 : ℤ) ≤ 0), if_pos (Or.inr hacc)]
  rfl

theorem scan_close_outer (start : Bool) (acc : Str) (stack : List Slot) (rest : Str) :
    scan dt compile start acc false 1 stack (closing :: rest) =
      (fillArgs stack (compile acc)).bind fun stack =>
        scan dt compile false [] false 0 stack rest := by
  rw [scan, if_neg Bool.false_ne_true, if_neg (by decide), if_neg (by decide), if_pos rfl,
    if_pos (by decide)]
  rfl

theorem spelling_ne_nil {value : Str} (s : Spelling value) (h : value ≠ []) : s.text ≠ [] := by
  intro hnil
  have hun := unescape_spelling s []
  rw [hnil] at hun
  exact h (List.append_eq_nil_iff.mp hun.symm).1

/-- A function with its arguments in parentheses, whatever is behind. -/
theorem scan_call (before : Blanks) {name : Str} (s : Spelling name) (middle : Blanks)
    (h : dt.isFunction name = true) {args : Str}
    (hdeep : ∀ (stack : List Slot) (rest : Str),
      scan dt compile false [] false 1 stack (args ++ closing :: rest) =
        scan dt compile false args false 1 stack (closing :: rest))
    (after : Blanks) (start : Bool) (stack : List Slot) (rest : Str) :
    scan dt compile start [] false 0 stack
        ((before.val ++ (s.text ++ middle.val)) ++
          paren :: (args ++ closing :: (after.val ++ rest))) =
      (compile args).bind fun args =>
        scan dt compile false after.val false 0 (stack ++ [.func name, .table args]) rest := by
  have hname : Quiet dt compile (before.val ++ (s.text ++ middle.val)) :=
    before.quiet.append (s.quiet.append middle.quiet)
  have hne : before.val ++ (s.text ++ middle.val) ≠ [] := fun hnil =>
    spelling_ne_nil s (dt.identifier name h).1
      (List.append_eq_nil_iff.mp (List.append_eq_nil_iff.mp hnil).2).1
  rw [hname, List.nil_append, scan_paren_outer start hne, pushLabel_function before s middle h]
  have hfill : fillArgs (stack ++ [.func name, .table []]) (compile args) =
      (compile args).map fun args => stack ++ [.func name, .table args] := by
    have hlast : (stack ++ [Slot.func name, .table []]).dropLast = stack ++ [Slot.func name] := by
      rw [List.dropLast_append_of_ne_nil (List.cons_ne_nil _ _)]
      rfl
    unfold fillArgs
    rw [hlast, List.getLast?_concat]
    simp only [List.append_assoc, List.singleton_append]
  refine (hdeep _ _).trans ?_
  rw [scan_close_outer, hfill]
  cases compile args with
  | error e => rfl
  | ok args => exact after.quiet false [] 0 _ rest

/-- What the compilation of the arguments of an expression gives. -/
def Inner (compile : Str → Except Failure (List Slot)) : Syn dt → Prop
  | .literal _ _ _ _ _ => True
  | .validator _ _ _ _ => True
  | .many _ _ _ _ first rest _ => Outcome (compile (first.text ++ tailText rest))
      (first.Tight ∧ AllTight rest) (slots first.expr ++ slotsOf (exprsOf rest))
  | .list _ _ _ d _ => Outcome (compile d.text) d.Tight (slots d.expr)

theorem ended_blanks (b : Blanks) (stack : List Slot) :
    Outcome (ended dt false b.val stack) (b.val = []) stack := by
  unfold ended
  by_cases hb : b.val = []
  · rw [if_neg fun h => h.elim Bool.false_ne_true fun hne => hne hb]
    exact Or.inl ⟨hb, rfl⟩
  · rw [if_pos (Or.inr hb), pushLabel_blank]
    exact Or.inr ⟨hb, _, rfl⟩

theorem Combinator.isFunction (c : Combinator) : dt.isFunction c.name = true := by
  cases c with
  | or => exact dt.combinators _ (Or.inl rfl)
  | and => exact dt.combinators _ (Or.inr (Or.inl rfl))

theorem slots_many (c : Combinator) (args : List Expr) :
    slots (c.expr args) = [.func c.name, .table (slotsOf args)] := by
  cases c with
  | or => rfl
  | and => rfl

/-- The text of an argument either fails, or leaves a label for the comma or the end. -/
def Leaves (dt : Datatypes) (compile : Str → Except Failure (List Slot)) (t : Str) (tight : Prop)
    (out : List Slot) : Prop :=
  ∀ (start : Bool) (stack : List Slot),
    (∃ b acc stack', (∀ rest, scan dt compile start [] false 0 stack (t ++ rest) =
      scan dt compile b acc false 0 stack' rest) ∧
        Outcome (ended dt b acc stack') tight (stack ++ out)) ∨
    ¬tight ∧ ∃ f, ∀ rest, scan dt compile start [] false 0 stack (t ++ rest) = .error f

/-- A text without parentheses is the label. -/
theorem Leaves.quiet {t : Str} {out : List Slot} (hquiet : Quiet dt compile t) (hne : t ≠ [])
    (hlabel : ∀ stack, pushLabel dt stack t = .ok (stack ++ out)) :
    Leaves dt compile t True out := fun start stack =>
  Or.inl ⟨start, t, stack, fun rest => hquiet start [] 0 stack rest,
    Or.inl ⟨trivial, (if_pos (Or.inr hne)).trans (hlabel stack)⟩⟩

theorem Leaves.call (before : Blanks) {name : Str} (s : Spelling name) (middle : Blanks)
    (h : dt.isFunction name = true) {args : Str}
    (hdeep : ∀ (stack : List Slot) (rest : Str),
      scan dt compile false [] false 1 stack (args ++ closing :: rest) =
        scan dt compile false args false 1 stack (closing :: rest))
    (after : Blanks) {tight : Prop} {out : List Slot} (hinner : Outcome (compile args) tight out) :
    Leaves dt compile
      ((before.val ++ (s.text ++ middle.val)) ++ paren :: (args ++ closing :: after.val))
      (tight ∧ after.val = []) [.func name, .table out] := by
  intro start stack
  have hcall (rest : Str) := scan_call before s middle h hdeep after start stack rest
  have htext (rest : Str) :
      (before.val ++ (s.text ++ middle.val)) ++ paren :: (args ++ closing :: after.val) ++ rest =
        (before.val ++ (s.text ++ middle.val)) ++
          paren :: (args ++ closing :: (after.val ++ rest)) := by
    simp only [List.append_assoc, List.cons_append]
  rcases hinner with ⟨htight, hok⟩ | ⟨htight, f, herror⟩
  · refine Or.inl ⟨false, after.val, stack ++ [.func name, .table out], fun rest => ?_, ?_⟩
    · rw [htext, hcall, hok]
      rfl
    · have hafter : Outcome (ended dt false after.val _) (after.val = [])
          (stack ++ [.func name, .table out]) := ended_blanks after _
      rcases hafter with ⟨hnil, hend⟩ | ⟨hnil, hend⟩
      · exact Or.inl ⟨⟨htight, hnil⟩, hend⟩
      · exact Or.inr ⟨fun htight => hnil htight.2, hend⟩
  · refine Or.inr ⟨fun hboth => htight hboth.1, f, fun rest => ?_⟩
    rw [htext, hcall, herror]
    rfl

theorem leaves_arg (e : Syn dt) (hinner : Inner compile e) :
    Leaves dt compile e.text e.Tight (slots e.expr) := by
  match e, hinner with
  | .literal before q value s after, _ =>
    exact Leaves.quiet (quiet_literal before q s after)
      (List.append_ne_nil_of_right_ne_nil _ (List.cons_ne_nil _ _))
      (pushLabel_literal before q s after)
  | .validator before n s after, _ =>
    have hfun := n.property.1
    have hne : before.val ++ (s.text ++ after.val) ≠ [] := fun hnil =>
      spelling_ne_nil s (dt.identifier _ hfun).1
        (List.append_eq_nil_iff.mp (List.append_eq_nil_iff.mp hnil).2).1
    exact Leaves.quiet (before.quiet.append (s.quiet.append after.quiet)) hne
      (pushLabel_function before s after hfun)
  | .many before c s middle first args after, hinner =>
    have hdeep (stack : List Slot) (rest : Str) :
        scan dt compile false [] false 1 stack ((first.text ++ tailText args) ++ closing :: rest) =
          scan dt compile false (first.text ++ tailText args) false 1 stack (closing :: rest) := by
      rw [List.append_assoc, scan_deep first (by decide), scan_deepTail args (by decide),
        List.nil_append]
    have hcall := Leaves.call before s middle c.isFunction hdeep after hinner
    have htext : (Syn.many before c s middle first args after).text =
        (before.val ++ (s.text ++ middle.val)) ++
          paren :: ((first.text ++ tailText args) ++ closing :: after.val) := by
      simp [Syn.text]
    have hslots : slots (Syn.many before c s middle first args after).expr =
        [.func c.name, .table (slots first.expr ++ slotsOf (exprsOf args))] :=
      slots_many c (first.expr :: exprsOf args)
    rw [htext, hslots, Syn.Tight, ← and_assoc]
    exact hcall
  | .list before s middle d after, hinner =>
    have hlist : dt.isFunction listName = true := dt.combinators _ (Or.inr (Or.inr (Or.inr rfl)))
    have hdeep (stack : List Slot) (rest : Str) :
        scan dt compile false [] false 1 stack (d.text ++ closing :: rest) =
          scan dt compile false d.text false 1 stack (closing :: rest) := by
      rw [scan_deep d (by decide), List.nil_append]
    have hcall := Leaves.call before s middle hlist hdeep after hinner
    have htext : (Syn.list before s middle d after).text =
        (before.val ++ (s.text ++ middle.val)) ++ paren :: (d.text ++ closing :: after.val) := by
      simp [Syn.text]
    rw [htext]
    exact hcall

/-- The outcome of the first part decides, or else the outcome of the rest. -/
theorem Outcome.bind {r : Except Failure (List Slot)} {tight next : Prop} {mid out : List Slot}
    {f : List Slot → Except Failure (List Slot)} (hr : Outcome r tight mid)
    (hf : Outcome (f mid) next out) : Outcome (r.bind f) (tight ∧ next) out := by
  rcases hr with ⟨htight, rfl⟩ | ⟨htight, e, rfl⟩
  · rcases hf with ⟨hnext, hok⟩ | ⟨hnext, herror⟩
    · exact Or.inl ⟨⟨htight, hnext⟩, hok⟩
    · exact Or.inr ⟨fun h => hnext h.2, herror⟩
  · exact Or.inr ⟨fun h => htight h.1, e, rfl⟩

/-- Commas between arguments leave the slots of all of them. -/
theorem scan_args (first : Syn dt) (rest : List (Syn dt)) (hfirst : Inner compile first)
    (hrest : ∀ e ∈ rest, Inner compile e) (start : Bool) (stack : List Slot) :
    Outcome (scan dt compile start [] false 0 stack (first.text ++ tailText rest))
      (first.Tight ∧ AllTight rest) (stack ++ (slots first.expr ++ slotsOf (exprsOf rest))) := by
  induction rest generalizing first start stack with
  | nil =>
    rw [tailText, exprsOf, slotsOf, List.append_nil (slots _), AllTight, and_true]
    rcases leaves_arg first hfirst start stack with ⟨b, acc, stack', hscan, hend⟩ | ⟨htight, f, hf⟩
    · rw [hscan, scan_end]
      exact hend
    · exact Or.inr ⟨htight, f, hf []⟩
  | cons e rest ih =>
    obtain ⟨he, hrest⟩ := List.forall_mem_cons.mp hrest
    rw [tailText]
    rcases leaves_arg first hfirst start stack with ⟨b, acc, stack', hscan, hend⟩ | ⟨htight, f, hf⟩
    · rw [hscan, scan_comma_outer]
      have hnext := ih e he hrest false (stack ++ slots first.expr)
      rw [List.append_assoc] at hnext
      exact hend.bind hnext
    · exact Or.inr ⟨fun h => htight h.1, f, hf _⟩

end

theorem length_le_tailText {e : Syn dt} {rest : List (Syn dt)} (h : e ∈ rest) :
    e.text.length ≤ (tailText rest).length := by
  induction rest with
  | nil => cases h
  | cons d rest ih =>
    rw [tailText, List.length_cons, List.length_append]
    rcases List.mem_cons.mp h with rfl | hrest
    · omega
    · have := ih hrest
      omega

/-- The compiled list of some arguments. -/
theorem compile_args (calls : ℕ) (first : Syn dt) (rest : List (Syn dt))
    (h : (first.text ++ tailText rest).length < calls) :
    Outcome (compileDatatype dt calls (first.text ++ tailText rest))
      (first.Tight ∧ AllTight rest) (slots first.expr ++ slotsOf (exprsOf rest)) := by
  induction calls generalizing first rest with
  | zero => cases h
  | succ calls ih =>
    -- the texts inside of an argument are shorter
    have hinner (e : Syn dt) (he : e.text.length < calls + 1) :
        Inner (compileDatatype dt calls) e := by
      match e with
      | .literal _ _ _ _ _ => trivial
      | .validator _ _ _ _ => trivial
      | .many before c s middle first args after =>
        refine ih first args ?_
        simp only [Syn.text, List.length_append, List.length_cons] at he ⊢
        omega
      | .list before s middle d after =>
        have hd : (d.text ++ tailText ([] : List (Syn dt))).length < calls := by
          simp only [Syn.text, tailText, List.append_nil, List.length_append,
            List.length_cons] at he ⊢
          omega
        have hone := ih d [] hd
        rw [tailText, exprsOf, slotsOf, List.append_nil, List.append_nil, AllTight,
          and_true] at hone
        exact hone
    rw [compileDatatype_eq]
    rw [List.length_append] at h
    exact scan_args first rest (hinner first (by omega))
      (fun e he => hinner e (by have := length_le_tailText he; omega)) true []

theorem compile_arg (e : Syn dt) :
    Outcome (compileDatatype dt (e.text.length + 1) e.text) e.Tight (slots e.expr) := by
  have hlen : (e.text ++ tailText ([] : List (Syn dt))).length < e.text.length + 1 := by
    rw [tailText, List.append_nil]
    exact Nat.lt_succ_self _
  have h := compile_args _ e [] hlen
  rw [tailText, exprsOf, slotsOf, List.append_nil, List.append_nil, AllTight, and_true] at h
  exact h

end Iot7688.Cbi
