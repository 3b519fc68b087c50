import Iot7688.CbiCompile

/-!
What the combinators make of a compiled list, and which datatypes verify_datatype decides as
they mean. The combinators go in steps of two, so behind a literal, which has one slot, they
are between the slots of the arguments until the next one. A blank behind a parenthesis that
closes raises an error.
-/
namespace Iot7688.Cbi

open Lib Lua

section

variable {dt : Datatypes}

theorem orLoop_text (v s : Str) (l : List Slot) :
    orLoop dt v (.text s :: l) = (decide (s = v) || orLoop dt v l.tail) := by
  cases l with
  | nil =>
    rw [orLoop, List.tail_nil, orLoop, Bool.or_false]
    rfl
  | cons a l =>
    rw [orLoop]
    · rfl
    · exact nofun

theorem orLoop_table (v : Str) (args l : List Slot) :
    orLoop dt v (.table args :: l) = orLoop dt v l.tail := by
  cases l with
  | nil =>
    rw [orLoop, List.tail_nil, orLoop]
    rfl
  | cons a l =>
    rw [orLoop]
    · rfl
    · exact nofun

theorem andLoop_text (v s : Str) (l : List Slot) :
    andLoop dt v (.text s :: l) = (decide (s = v) && andLoop dt v l.tail) := by
  cases l with
  | nil =>
    rw [andLoop, List.tail_nil, andLoop, Bool.and_true]
    rfl
  | cons a l =>
    rw [andLoop]
    · rfl
    · exact nofun

theorem andLoop_table (v : Str) (args l : List Slot) :
    andLoop dt v (.table args :: l) = false := by
  cases l with
  | nil =>
    rw [andLoop]
    rfl
  | cons a l =>
    rw [andLoop]
    · rfl
    · exact nofun

/-- The slots of an expression other than a literal do what its kept part means. -/
def Called (dt : Datatypes) (e : Expr) : Prop :=
  (∃ s, e = .literal s) ∨ (∀ s, e ≠ .literal s) ∧
    ∃ name args, slots e = [.func name, .table args] ∧
      ∀ v, callSlot dt name v (.table args) = meaning dt (kept e) v

theorem keptOr_call {e : Expr} (h : ∀ s, e ≠ .literal s) (args : List Expr) :
    keptOr false (e :: args) = kept e :: keptOr false args ∧
      keptOr true (e :: args) = keptOr true args := by
  cases e with
  | literal s => exact absurd rfl (h s)
  | validator name => exact ⟨rfl, rfl⟩
  | or es => exact ⟨rfl, rfl⟩
  | and es => exact ⟨rfl, rfl⟩
  | list d => exact ⟨rfl, rfl⟩

theorem keptAnd_call {e : Expr} (h : ∀ s, e ≠ .literal s) (args : List Expr) :
    keptAnd false (e :: args) = kept e :: keptAnd false args ∧
      keptAnd true (e :: args) = .or [] :: keptAnd true args := by
  cases e with
  | literal s => exact absurd rfl (h s)
  | validator name => exact ⟨rfl, rfl⟩
  | or es => exact ⟨rfl, rfl⟩
  | and es => exact ⟨rfl, rfl⟩
  | list d => exact ⟨rfl, rfl⟩

theorem kept_list {d : Expr} (h : ∀ s, d ≠ .literal s) : kept (.list d) = .list (kept d) := by
  cases d with
  | literal s => exact absurd rfl (h s)
  | validator name => rfl
  | or es => rfl
  | and es => rfl
  | list d => rfl

/-- The loop of 'or' from a slot of the first argument, and from between its slots. -/
def OrWalk (dt : Datatypes) (args : List Expr) : Prop :=
  ∀ v, orLoop dt v (slotsOf args) = anyMeans dt (keptOr false args) v ∧
    orLoop dt v (slotsOf args).tail = anyMeans dt (keptOr true args) v

def AndWalk (dt : Datatypes) (args : List Expr) : Prop :=
  ∀ v, andLoop dt v (slotsOf args) = allMean dt (keptAnd false args) v ∧
    andLoop dt v (slotsOf args).tail = allMean dt (keptAnd true args) v

theorem orWalk_nil : OrWalk dt [] := by
  intro v
  rw [slotsOf, List.tail_nil, orLoop, keptOr, keptOr, anyMeans]
  exact ⟨rfl, rfl⟩

theorem andWalk_nil : AndWalk dt [] := by
  intro v
  rw [slotsOf, List.tail_nil, andLoop, keptAnd, keptAnd, allMean]
  exact ⟨rfl, rfl⟩

theorem OrWalk.cons {e : Expr} {args : List Expr} (he : Called dt e) (h : OrWalk dt args) :
    OrWalk dt (e :: args) := by
  intro v
  obtain ⟨hargs, htail⟩ := h v
  rw [slotsOf]
  rcases he with ⟨s, rfl⟩ | ⟨hcall, name, inner, hslots, hmeans⟩
  · have heq : decide (s = v) = meaning dt (.literal s) v := by
      rw [meaning]
      exact decide_eq_decide.mpr eq_comm
    rw [slots, List.singleton_append, List.tail_cons, orLoop_text, htail, hargs, heq]
    exact ⟨rfl, rfl⟩
  · obtain ⟨heven, hodd⟩ := keptOr_call hcall args
    rw [hslots, heven, hodd, anyMeans, ← hmeans v, ← hargs, ← htail]
    refine ⟨?_, orLoop_table v inner (slotsOf args)⟩
    rw [List.cons_append, List.singleton_append, orLoop]

theorem AndWalk.cons {e : Expr} {args : List Expr} (he : Called dt e) (h : AndWalk dt args) :
    AndWalk dt (e :: args) := by
  intro v
  obtain ⟨hargs, htail⟩ := h v
  rw [slotsOf]
  rcases he with ⟨s, rfl⟩ | ⟨hcall, name, inner, hslots, hmeans⟩
  · have heq : decide (s = v) = meaning dt (.literal s) v := by
      rw [meaning]
      exact decide_eq_decide.mpr eq_comm
    rw [slots, List.singleton_append, List.tail_cons, andLoop_text, htail, hargs, heq]
    exact ⟨rfl, rfl⟩
  · obtain ⟨heven, hodd⟩ := keptAnd_call hcall args
    rw [hslots, heven, hodd, allMean, ← hmeans v, ← hargs]
    refine ⟨?_, ?_⟩
    · rw [List.cons_append, List.singleton_append, andLoop]
    · -- a table is no function and equals no value
      rw [List.cons_append, List.singleton_append, List.tail_cons, andLoop_table, allMean, meaning,
        anyMeans, Bool.false_and]

/-- A combinator calls its loop. -/
theorem callSlot_many (c : Combinator) (args : List Slot) (v : Str) :
    callSlot dt c.name v (.table args) =
      match c with
      | .or => orLoop dt v args
      | .and => andLoop dt v args := by
  cases c with
  | or =>
    rw [Combinator.name, callSlot, if_pos rfl]
  | and =>
    rw [Combinator.name, callSlot, if_neg (by decide), if_neg (by decide), if_pos rfl]

theorem callSlot_list (args : List Slot) (v : Str) :
    callSlot dt listName v (.table args) = listArgs dt v args := by
  rw [callSlot, if_neg (by decide), if_neg (by decide), if_neg (by decide), if_pos rfl]

theorem called_many (c : Combinator) {args : List Expr} (hor : OrWalk dt args)
    (hand : AndWalk dt args) : Called dt (c.expr args) := by
  refine Or.inr ⟨fun s => by cases c <;> exact nofun, c.name, slotsOf args, slots_many c args,
    fun v => ?_⟩
  rw [callSlot_many]
  cases c with
  | or =>
    rw [Combinator.expr, kept, meaning]
    exact (hor v).1
  | and =>
    rw [Combinator.expr, kept, meaning]
    exact (hand v).1

theorem called_list {d : Expr} (hd : Called dt d) : Called dt (.list d) := by
  refine Or.inr ⟨fun s => nofun, listName, slots d, rfl, fun v => ?_⟩
  rw [callSlot_list]
  rcases hd with ⟨s, rfl⟩ | ⟨hcall, name, inner, hslots, hmeans⟩
  · rw [slots, listArgs, kept, meaning, anyMeans]
    exact nofun
  · rw [hslots, listArgs, kept_list hcall, meaning]
    simp only [hmeans]

mutual

theorem called_expr (e : Syn dt) : Called dt e.expr := by
  match e with
  | .literal _ _ value _ _ => exact Or.inl ⟨value, rfl⟩
  | .validator _ n _ _ =>
    obtain ⟨n, -, hor, hand, hneg, hlist⟩ := n
    refine Or.inr ⟨fun s => nofun, n, [], rfl, fun v => ?_⟩
    rw [callSlot, if_neg hor, if_neg hneg, if_neg hand, if_neg hlist]
    exact (by rw [Syn.expr, kept, meaning])
  | .many _ c _ _ first rest _ =>
    obtain ⟨hor, hand⟩ := walk_args rest
    exact called_many c (hor.cons (called_expr first)) (hand.cons (called_expr first))
  | .list _ _ _ d _ => exact called_list (called_expr d)

theorem walk_args (args : List (Syn dt)) :
    OrWalk dt (exprsOf args) ∧ AndWalk dt (exprsOf args) := by
  match args with
  | [] => exact ⟨orWalk_nil, andWalk_nil⟩
  | e :: args =>
    obtain ⟨hor, hand⟩ := walk_args args
    exact ⟨hor.cons (called_expr e), hand.cons (called_expr e)⟩

end

end

section

variable {dt : Datatypes}

mutual

/-- A literal has no argument behind it and is no argument of 'list'. -/
def Expr.LiteralsLast : Expr → Prop
  | .literal _ => True
  | .validator _ => True
  | .or args => AllLast args
  | .and args => AllLast args
  | .list (.literal _) => False
  | .list d => d.LiteralsLast

def AllLast : List Expr → Prop
  | [] => True
  | .literal _ :: args => args = []
  | e :: args => e.LiteralsLast ∧ AllLast args

end

/-- An argument that is looked at in front of others. -/
theorem kept_cons {e : Expr} {args : List Expr} (h : ∀ s, e ≠ .literal s) (he : kept e = e)
    (hargs : keptOr false args = args ∧ keptAnd false args = args) :
    keptOr false (e :: args) = e :: args ∧ keptAnd false (e :: args) = e :: args := by
  obtain ⟨hor, hand⟩ := hargs
  rw [(keptOr_call h args).1, (keptAnd_call h args).1, he, hor, hand]
  exact ⟨rfl, rfl⟩

mutual

/-- Then all arguments are looked at. -/
theorem kept_of_literalsLast (e : Expr) (h : e.LiteralsLast) : kept e = e := by
  match e, h with
  | .literal s, _ => rfl
  | .validator name, _ => rfl
  | .or args, h => rw [kept, (kept_of_allLast args h).1]
  | .and args, h => rw [kept, (kept_of_allLast args h).2]
  | .list (.validator name), _ => rfl
  | .list (.or args), h =>
    rw [kept_list (d := .or args) nofun, kept_of_literalsLast (.or args) h]
  | .list (.and args), h =>
    rw [kept_list (d := .and args) nofun, kept_of_literalsLast (.and args) h]
  | .list (.list d), h =>
    rw [kept_list (d := .list d) nofun, kept_of_literalsLast (.list d) h]

theorem kept_of_allLast (args : List Expr) (h : AllLast args) :
    keptOr false args = args ∧ keptAnd false args = args := by
  match args, h with
  | [], _ => exact ⟨rfl, rfl⟩
  | .literal s :: _, rfl => exact ⟨rfl, rfl⟩
  | .validator name :: args, h => exact kept_cons nofun rfl (kept_of_allLast args h.2)
  | .or es :: args, h =>
    exact kept_cons nofun (kept_of_literalsLast (.or es) h.1) (kept_of_allLast args h.2)
  | .and es :: args, h =>
    exact kept_cons nofun (kept_of_literalsLast (.and es) h.1) (kept_of_allLast args h.2)
  | .list d :: args, h =>
    exact kept_cons nofun (kept_of_literalsLast (.list d) h.1) (kept_of_allLast args h.2)

end

theorem expr_ne_literal {e : Syn dt} (h : ¬e.IsLiteral) (s : Str) : e.expr ≠ .literal s := by
  match e, h with
  | .literal _ _ _ _ _, h => exact absurd trivial h
  | .validator _ _ _ _, _ => exact nofun
  | .many _ .or _ _ _ _ _, _ => exact nofun
  | .many _ .and _ _ _ _ _, _ => exact nofun
  | .list _ _ _ _ _, _ => exact nofun

theorem text_length_pos (e : Syn dt) : 0 < e.text.length := by
  cases e with
  | literal =>
    simp only [Syn.text, List.length_append, List.length_cons]
    omega
  | validator _ n s _ =>
    have hname := List.length_pos_iff.mpr (spelling_ne_nil s (dt.identifier _ n.property.1).1)
    simp only [Syn.text, List.length_append]
    omega
  | many =>
    simp only [Syn.text, List.length_append, List.length_cons]
    omega
  | list =>
    simp only [Syn.text, List.length_append, List.length_cons]
    omega

/-- A tight datatype is decided by its kept arguments, and others are refused. -/
theorem verifyDatatype_text (e : Syn dt) (h : ¬e.IsLiteral) (v : Str) :
    e.Tight ∧ verifyDatatype dt e.text v = .ok (meaning dt (kept e.expr) v) ∨
      ¬e.Tight ∧ ∃ f, verifyDatatype dt e.text v = .error f := by
  rcases called_expr e with ⟨s, hs⟩ | ⟨-, name, args, hslots, hmeans⟩
  · exact absurd hs (expr_ne_literal h s)
  have hcompile := compile_arg e
  rw [hslots] at hcompile
  unfold verifyDatatype
  rw [if_pos (text_length_pos e)]
  rcases hcompile with ⟨htight, hok⟩ | ⟨htight, f, herror⟩
  · rw [hok, ← hmeans v]
    exact Or.inl ⟨htight, rfl⟩
  · rw [herror]
    exact Or.inr ⟨htight, f, rfl⟩

theorem verifyDatatype_of_literalsLast {e : Syn dt} (h : ¬e.IsLiteral) (htight : e.Tight)
    (hlast : e.expr.LiteralsLast) (v : Str) :
    verifyDatatype dt e.text v = .ok (meaning dt e.expr v) := by
  rcases verifyDatatype_text e h v with ⟨-, hok⟩ | ⟨hloose, -⟩
  · rw [hok, kept_of_literalsLast e.expr hlast]
  · exact absurd htight hloose

/-- verify_datatype accepts a value exactly when the datatype means so, if and only if the
datatype is tight where it accepts, and a tight one means the same by its kept arguments. -/
theorem accepts_iff (e : {e : Syn dt // ¬e.IsLiteral}) (v : Str) :
    (verifyDatatype dt e.val.text v = .ok true ↔ meaning dt e.val.expr v = true) ↔
      (meaning dt e.val.expr v = true → e.val.Tight) ∧
        (e.val.Tight → meaning dt (kept e.val.expr) v = meaning dt e.val.expr v) := by
  rcases verifyDatatype_text e.val e.property v with ⟨htight, hok⟩ | ⟨htight, f, herror⟩
  · rw [hok, Except.ok.injEq, ← Bool.eq_iff_iff]
    exact ⟨fun h => ⟨fun _ => htight, fun _ => h⟩, fun h => h.2 htight⟩
  · rw [herror]
    constructor
    · intro h
      exact ⟨fun hmeans => absurd (h.mpr hmeans) nofun, fun hcontra => absurd hcontra htight⟩
    · intro h
      exact ⟨nofun, fun hmeans => absurd (h.1 hmeans) htight⟩

end

/-- Datatypes without numbers and with the combinators alone. -/
def combinatorsOnly : Datatypes where
  isNumber _ := false
  isFunction n := n = orName ∨ n = andName ∨ n = negName ∨ n = listName
  call _ _ _ := false
  combinators _ h := decide_eq_true h
  identifier n h := by
    rcases of_decide_eq_true h with rfl | rfl | rfl | rfl <;> decide +kernel
  unquoted _ _ _ := rfl

def blank : Blanks := ⟨[], nofun⟩

/-- A text without backslashes. -/
def plainSpelling (value : Str) (h : ∀ c ∈ value, isSpecial c = false) : Spelling value where
  chars := value.map fun c => (false, c)
  value_eq := by rw [List.map_map]; exact List.map_id value
  escaped p hp hspecial := by
    obtain ⟨c, hc, rfl⟩ := List.mem_map.mp hp
    rw [h c hc] at hspecial
    cases hspecial

def oneLetter : Syn combinatorsOnly :=
  .many blank .or (plainSpelling orName (by decide +kernel)) blank
    (.literal blank .single (bytesOf "a") (plainSpelling _ (by decide +kernel)) blank) [] blank

theorem verifyDatatype_oneLetter : verifyDatatype combinatorsOnly oneLetter.text (bytesOf "b") =
    .ok (meaning combinatorsOnly oneLetter.expr (bytesOf "b")) :=
  verifyDatatype_of_literalsLast (e := oneLetter) id ⟨trivial, trivial, rfl⟩ rfl _

def eitherLetter : Syn combinatorsOnly :=
  .many blank .or (plainSpelling orName (by decide +kernel)) blank
    (.literal blank .single (bytesOf "a") (plainSpelling _ (by decide +kernel)) blank)
    [.literal blank .single (bytesOf "b") (plainSpelling _ (by decide +kernel)) blank] blank

/-- The second of two texts is not looked at. -/
theorem second_literal_refused :
    eitherLetter.text = bytesOf "or('a','b')" ∧
      ¬(verifyDatatype combinatorsOnly eitherLetter.text (bytesOf "b") = .ok true ↔
        meaning combinatorsOnly eitherLetter.expr (bytesOf "b") = true) := by
  refine ⟨by decide +kernel, fun h => ?_⟩
  have hmeans : meaning combinatorsOnly eitherLetter.expr (bytesOf "b") = true := by decide +kernel
  have hrefused : verifyDatatype combinatorsOnly eitherLetter.text (bytesOf "b") = .ok false := rfl
  rw [hrefused] at h
  exact absurd (h.mpr hmeans) nofun

end Iot7688.Cbi
