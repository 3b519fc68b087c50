import Iot7688.OwipcalcSize

/-!
What the operations do to the stack. A question leaves it alone, a computation pushes one
entry, print and pop take one away; the IPv6 version of contains pushes the copy that it
compares. Nothing asks whether there is an entry left: an operation after the last one was
taken, or a last print that is due with nothing printed, reads from a null pointer.
-/
namespace Iot7688.Owipcalc

open Lib

/-- What is asked of an operation: an answer, a new entry, a size for the entry on top, or
that the entry goes away. -/
inductive Effect
  | query
  | compute
  | resize
  | drop
deriving DecidableEq

def Op.effect : Op → Effect
  | .contains | .howmany | .isPrivate | .linklocal | .ula | .quiet => .query
  | .add | .sub | .next | .prev | .network | .broadcast | .netmask | .sixToFour => .compute
  | .size => .resize
  | .pop | .print => .drop

def Effect.Holds : Effect → List Cidr → List Cidr → Prop
  | query, stack, stack' => stack' = stack
  | compute, stack, stack' => ∃ n, stack' = n :: stack
  | resize, stack, stack' => ∃ a n rest, stack = a :: rest ∧ stack' = n :: rest
  | drop, stack, stack' => ∃ a, stack = a :: stack'

/-- main prints what is on top when the arguments are used up and nothing was printed. -/
def PrintsLast (c : Config) : Prop := c.args = [] ∧ c.state.printed = false ∧ c.status < 2

/-- The call of runop in a configuration keeps to the discipline: it is not on an empty
stack and not without a meaning, an operation does what is asked of it, and a print that
main adds has an entry, which it takes away. -/
def Disciplined (inet : Inet) (h : Host) (c : Config) : Prop :=
  match runop inet h c with
  | .crash => False
  | .undefined => False
  | .exits _ => True
  | .stops c' => PrintsLast c' → ∃ a rest, c'.state.stack = a :: rest ∧
      ∃ s', (if a.family = .inet then cidrPrint4 else cidrPrint6) h a c'.state = some (s', true) ∧
        Effect.drop.Holds c'.state.stack s'.stack
  | .continues c' => ∃ arg op, c.args.head? = some arg ∧ findOp arg = some op ∧
      op.effect.Holds c.state.stack c'.state.stack

/-- On which operands an IPv6 operation stays inside of the address. -/
def Op.Defined6 (op : Op) (a : Cidr) (b : Option Cidr) : Prop :=
  match op, b with
  | .next, some b => b.size = 0 ∨ sizeIndex b ≤ 15
  | .prev, some b => b.size = 0 ∨ sizeIndex b ≤ 15
  | .network, none => a.size.toNat ≤ 128
  | .contains, some _ => (128 - a.size).toNat / 8 % 2 ^ 8 ≤ 15
  | .howmany, some b => b.size < a.size ∨ (b.size - a.size).toNat < 32
  | _, _ => True

def Op.Defined (op : Op) (a : Cidr) (b : Option Cidr) : Prop :=
  match a.family with
  | .inet => op.Defined4 a b
  | .inet6 => op.Defined6 a b

/-- The arguments begin with an operation that is looked for on the stack. -/
def Begins : List (List Byte) → Prop
  | [] => False
  | arg :: rest => ∃ op, findOp arg = some op ∧ (op.f4a2.isSome ∨ op.f6a2.isSome → rest ≠ [])

/-- The condition on a step: contains is asked of IPv4 addresses only, the operation has a
meaning, and the last entry is taken only when no operation follows, and popped only when
something was printed or arguments are left over. -/
def StackSafe (inet : Inet) (h : Host) (c : Config) : Prop :=
  ∀ op a b, operands inet h c = some (op, a, b) →
    (op = .contains → a.family = .inet) ∧ op.Defined a b ∧
    (op.effect = .drop → c.state.stack = [a] → ¬Begins c.args.tail ∧
      (op = .pop → c.args.tail = [] → c.state.printed = true))

/-- An operation has the effect if it has a result. -/
def Has (e : Effect) (s : State) (r : Result) : Prop :=
  ∀ s' ok, r = some (s', ok) → e.Holds s.stack s'.stack

section

variable {e : Effect} {s s' : State} {a b n : Cidr} {ok : Bool} {r r' : Result} {h : Host}

theorem has_push : Has .compute s (some (s.cidrPush n, ok)) := by
  rintro _ _ ⟨⟩
  exact ⟨n, rfl⟩

theorem has_same (hs : s'.stack = s.stack) : Has .query s (some (s', ok)) := by
  rintro _ _ ⟨⟩
  exact hs

theorem has_answer {o : Output} : Has .query s (some (s.qprintf o, ok)) := has_same rfl

theorem has_none : Has e s none := fun _ _ hno => absurd hno (by simp)

theorem has_ite {p : Prop} [Decidable p] (hr : Has e s r) (hr' : Has e s r') :
    Has e s (if p then r else r') := by
  split
  · exact hr
  · exact hr'

theorem has_map {α : Type} {o : Option α} {f : α → State × Bool}
    (hf : ∀ x, Has e s (some (f x))) : Has e s (o.map f) := by
  cases o with
  | none => exact has_none
  | some x => exact hf x

variable {rest : List Cidr}

theorem has_pop (hs : s.stack = a :: rest) : Has .drop s (some s.cidrPop) := by
  unfold State.cidrPop
  rw [hs]
  rintro _ _ ⟨⟩
  exact ⟨a, hs⟩

theorem has_print4 (hs : s.stack = a :: rest) (ha : a.family = .inet) : Has .drop s (cidrPrint4 h a s) := by
  unfold cidrPrint4
  rw [if_neg (not_not.mpr ha)]
  rintro _ _ ⟨⟩
  refine ⟨a, ?_⟩
  unfold State.cidrPop State.qprintf
  dsimp only
  rw [hs]

theorem has_print6 (hs : s.stack = a :: rest) (ha : a.family = .inet6) :
    Has .drop s (cidrPrint6 h a s) := by
  unfold cidrPrint6
  rw [if_neg (not_not.mpr ha)]
  rintro _ _ ⟨⟩
  refine ⟨a, ?_⟩
  unfold State.cidrPop State.qprintf
  dsimp only
  rw [hs]

theorem has_setSize (hs : s.stack = a :: rest) : Has .resize s (setSize h a b s) := by
  rintro _ _ ⟨⟩
  refine ⟨a, { a with size := b.size }, rest, hs, ?_⟩
  show _ :: s.stack.tail = _
  rw [hs]
  rfl

theorem has_howmany : Has .query s (cidrHowmany h a b s) :=
  has_ite has_answer (has_map fun _ => has_answer)

theorem f4a1_has {op : Op} {f : Unary} (hf : op.f4a1 = some f) (hs : s.stack = a :: rest)
    (ha : a.family = .inet) : Has op.effect s (f h a s) := by
  cases op with
  | network => obtain rfl := Option.some.inj hf; exact has_map fun bit => has_push
  | broadcast => obtain rfl := Option.some.inj hf; exact has_map fun bit => has_push
  | netmask => obtain rfl := Option.some.inj hf; exact has_map fun bit => has_push
  | sixToFour => obtain rfl := Option.some.inj hf; exact has_push
  | isPrivate => obtain rfl := Option.some.inj hf; exact has_ite has_answer has_answer
  | linklocal => obtain rfl := Option.some.inj hf; exact has_ite has_answer has_answer
  | quiet => obtain rfl := Option.some.inj hf; exact has_same rfl
  | pop => obtain rfl := Option.some.inj hf; exact has_pop hs
  | print => obtain rfl := Option.some.inj hf; exact has_print4 hs ha
  | _ => exact absurd hf (by simp [Op.f4a1])

theorem f6a1_has {op : Op} {f : Unary} (hf : op.f6a1 = some f) (hs : s.stack = a :: rest)
    (ha : a.family = .inet6) : Has op.effect s (f h a s) := by
  cases op with
  | network => obtain rfl := Option.some.inj hf; exact has_ite has_none has_push
  | linklocal => obtain rfl := Option.some.inj hf; exact has_ite has_answer has_answer
  | ula => obtain rfl := Option.some.inj hf; exact has_ite has_answer has_answer
  | quiet => obtain rfl := Option.some.inj hf; exact has_same rfl
  | pop => obtain rfl := Option.some.inj hf; exact has_pop hs
  | print => obtain rfl := Option.some.inj hf; exact has_print6 hs ha
  | _ => exact absurd hf (by simp [Op.f6a1])

theorem f4a2_has {op : Op} {f : Binary} (hf : op.f4a2 = some f) (hs : s.stack = a :: rest) :
    Has op.effect s (f h a b s) := by
  cases op with
  | add => obtain rfl := Option.some.inj hf; exact has_ite has_push (has_ite has_push has_push)
  | sub => obtain rfl := Option.some.inj hf; exact has_ite has_push (has_ite has_push has_push)
  | next => obtain rfl := Option.some.inj hf; exact has_map fun bit => has_push
  | prev => obtain rfl := Option.some.inj hf; exact has_map fun bit => has_push
  | size => obtain rfl := Option.some.inj hf; exact has_setSize hs
  | howmany => obtain rfl := Option.some.inj hf; exact has_howmany
  | contains =>
    obtain rfl := Option.some.inj hf
    refine has_map fun bit => ?_
    dsimp only
    split
    · exact has_answer
    · exact has_answer
  | _ => exact absurd hf (by simp [Op.f4a2])

/-- All but contains. -/
theorem f6a2_has {op : Op} {f : Binary} (hf : op.f6a2 = some f) (hs : s.stack = a :: rest)
    (hop : op ≠ .contains) : Has op.effect s (f h a b s) := by
  cases op with
  | add => obtain rfl := Option.some.inj hf; exact has_ite has_push has_push
  | sub => obtain rfl := Option.some.inj hf; exact has_ite has_push has_push
  | next =>
    obtain rfl := Option.some.inj hf
    exact has_ite has_push (has_ite has_none (has_ite has_push has_push))
  | prev =>
    obtain rfl := Option.some.inj hf
    exact has_ite has_push (has_ite has_none (has_ite has_push has_push))
  | size => obtain rfl := Option.some.inj hf; exact has_setSize hs
  | howmany => obtain rfl := Option.some.inj hf; exact has_howmany
  | contains => exact absurd rfl hop
  | _ => exact absurd hf (by simp [Op.f6a2])

/-- The copy that contains compares stays on the stack. -/
theorem cidrContains6_pushes {ok : Bool} (hrun : cidrContains6 h a b s = some (s', ok)) :
    s'.stack = a :: s.stack := by
  unfold cidrContains6 at hrun
  dsimp only at hrun
  split at hrun
  · exact absurd hrun (by simp)
  · split at hrun
    · obtain ⟨rfl, -⟩ := Prod.mk.inj (Option.some.inj hrun)
      rfl
    · obtain ⟨rfl, -⟩ := Prod.mk.inj (Option.some.inj hrun)
      rfl

end

section

variable {op : Op} {a : Cidr} {b : Option Cidr} {h : Host} {s : State} {rest : List Cidr}

theorem run_has {r : Result} (hrun : op.run a b h s = some r) (hs : s.stack = a :: rest)
    (hop : op = .contains → a.family = .inet) : Has op.effect s r := by
  unfold Op.run Op.a1 Op.a2 at hrun
  cases hfamily : a.family with
  | inet =>
    rw [hfamily, if_pos rfl, if_pos rfl] at hrun
    cases b with
    | none =>
      obtain ⟨f, hf, rfl⟩ := Option.map_eq_some_iff.mp hrun
      exact f4a1_has hf hs hfamily
    | some b =>
      obtain ⟨f, hf, rfl⟩ := Option.map_eq_some_iff.mp hrun
      exact f4a2_has hf hs
  | inet6 =>
    rw [hfamily] at hop
    rw [hfamily, if_neg (by decide), if_neg (by decide)] at hrun
    cases b with
    | none =>
      obtain ⟨f, hf, rfl⟩ := Option.map_eq_some_iff.mp hrun
      exact f6a1_has hf hs hfamily
    | some b =>
      obtain ⟨f, hf, rfl⟩ := Option.map_eq_some_iff.mp hrun
      exact f6a2_has hf hs fun h => Family.noConfusion (hop h)

theorem cidrNetwork6_eq_none : cidrNetwork6 h a s = none ↔ ¬a.size.toNat ≤ 128 := by
  have hlt := a.size.isLt
  have hsub : (128 - a.size).toNat = (2 ^ 32 - a.size.toNat + 128) % 2 ^ 32 := BitVec.toNat_sub _ _
  unfold cidrNetwork6
  dsimp only
  split
  next hout => exact iff_of_true rfl (by omega)
  next hin => exact iff_of_false (Option.some_ne_none _) (by omega)

/-- Next and prev take the index from the size of the argument. -/
theorem size6_eq_none {b : Cidr} {r r' : Result} (hr : r ≠ none) (hr' : r' ≠ none) :
    (if b.size = 0 then r else if 15 < sizeIndex b then none else r') = none ↔
      ¬(b.size = 0 ∨ sizeIndex b ≤ 15) := by
  split
  next hzero => exact iff_of_false hr (not_not.mpr (.inl hzero))
  next hzero =>
    split
    next hout => exact iff_of_true rfl (not_or.mpr ⟨hzero, not_le.mpr hout⟩)
    next hin => exact iff_of_false hr' (not_not.mpr (.inr (not_lt.mp hin)))

/-- An IPv6 operation is without a meaning when it leaves the address. -/
theorem run6_undefined_iff (hfamily : a.family = .inet6) :
    op.run a b h s = some none ↔ ¬op.Defined6 a b := by
  have hdefined {r : State × Bool} : some (some r) = some none ↔ ¬True :=
    ⟨fun hno => absurd hno (by simp), fun hno => absurd trivial hno⟩
  have hunsupported : none = some (none : Result) ↔ ¬True :=
    ⟨fun hno => absurd hno (by simp), fun hno => absurd trivial hno⟩
  have hif {p : Prop} [Decidable p] {r r' : State × Bool} :
      some (if p then some r else some r') = some none ↔ ¬True := by
    split
    · exact hdefined
    · exact hdefined
  unfold Op.run Op.a1 Op.a2
  rw [hfamily, if_neg (by decide), if_neg (by decide)]
  cases b with
  | none =>
    cases op with
    | network => exact Option.some_inj.trans cidrNetwork6_eq_none
    | linklocal => exact hif
    | ula => exact hif
    | quiet => exact hdefined
    | pop => exact hdefined
    | print => exact hif
    | _ => exact hunsupported
  | some b =>
    cases op with
    | add => exact hif
    | sub => exact hif
    | next =>
      exact Option.some_inj.trans (size6_eq_none (Option.some_ne_none _)
        (ite_ne_none (Option.some_ne_none _) (Option.some_ne_none _)))
    | prev =>
      exact Option.some_inj.trans (size6_eq_none (Option.some_ne_none _)
        (ite_ne_none (Option.some_ne_none _) (Option.some_ne_none _)))
    | contains =>
      refine Option.some_inj.trans ?_
      unfold cidrContains6
      dsimp only
      split
      next hout => exact iff_of_true rfl (not_le.mpr hout)
      next hin => exact iff_of_false (ite_ne_none (Option.some_ne_none _) (Option.some_ne_none _)) (not_not.mpr (not_lt.mp hin))
    | size => exact hdefined
    | howmany => exact Option.some_inj.trans cidrHowmany_eq_none
    | _ => exact hunsupported

theorem run_undefined : op.run a b h s = some none ↔ ¬op.Defined a b := by
  unfold Op.Defined
  cases hfamily : a.family with
  | inet => exact run_undefined_iff h s hfamily
  | inet6 => exact run6_undefined_iff hfamily

end

section

variable {inet : Inet} {h : Host} {c c' : Config} {op : Op} {a : Cidr} {b : Option Cidr}

/-- Where the operands of the next operation come from. -/
theorem operands_cases (hop : operands inet h c = some (op, a, b)) : ∃ arg rest stack,
    c.args = arg :: rest ∧ findOp arg = some op ∧ c.state.stack = a :: stack ∧
      (b.isSome ↔ op.f4a2.isSome ∨ op.f6a2.isSome) := by
  unfold operands at hop
  split at hop
  · exact absurd hop (by simp)
  · rename_i arg1 rest hargs
    split at hop
    · rename_i op' a' stack hfind hstack
      refine ⟨arg1, rest, stack, hargs, ?_⟩
      split at hop
      · rename_i htwo
        split at hop
        · exact absurd hop (by simp)
        · split at hop
          · obtain ⟨rfl, rfl, rfl⟩ : op' = op ∧ a' = a ∧ _ = b := by simpa using hop
            exact ⟨hfind, hstack, iff_of_true rfl htwo⟩
          · exact absurd hop (by simp)
      · rename_i hone
        obtain ⟨rfl, rfl, rfl⟩ : op' = op ∧ a' = a ∧ none = b := by simpa using hop
        exact ⟨hfind, hstack, iff_of_false Bool.false_ne_true hone⟩
    · exact absurd hop (by simp)

/-- runop crashes when an operation finds nothing on the stack. -/
theorem runop_crash : runop inet h c = .crash ↔ Begins c.args ∧ c.state.stack = [] := by
  have hno {rest : List (List Byte)} {r : Result} : Next.ofResult rest r ≠ .crash := by
    rcases r with _ | ⟨s, ok⟩
    · exact fun h => Next.noConfusion h
    · exact fun h => Next.noConfusion h
  unfold runop
  cases hargs : c.args with
  | nil => exact iff_of_false (by simp) fun h => h.1
  | cons arg rest =>
    cases hfind : findOp arg with
    | none => exact iff_of_false (by simp [hfind]) fun ⟨⟨_, hop, _⟩, _⟩ => by simp [hfind] at hop
    | some op =>
      have hbegins : Begins (arg :: rest) ↔ (op.f4a2.isSome ∨ op.f6a2.isSome → rest ≠ []) := by
        show (∃ op, findOp arg = some op ∧ (op.f4a2.isSome ∨ op.f6a2.isSome → rest ≠ [])) ↔ _
        rw [hfind]
        simp
      rw [hbegins]
      simp only [hfind]
      split
      next htwo =>
        cases rest with
        | nil => exact iff_of_false (by simp) fun h => h.1 htwo rfl
        | cons arg2 rest =>
          cases hstack : c.state.stack with
          | nil => exact iff_of_true rfl ⟨fun _ => by simp, rfl⟩
          | cons a stack =>
            refine iff_of_false ?_ fun h => by simp at h
            dsimp only
            split
            · simp
            · simp
            · split
              · simp
              · exact hno
      next htwo =>
        cases hstack : c.state.stack with
        | nil => exact iff_of_true rfl ⟨fun h => absurd h htwo, rfl⟩
        | cons a stack =>
          refine iff_of_false ?_ fun h => by simp at h
          dsimp only
          split
          · simp
          · exact hno

/-- Without an operation that is run the state stays; main prints only if no argument is
left, and then runop did nothing. -/
theorem runop_stops_state (hstop : runop inet h c = .stops c') :
    c'.state = c.state ∧ (PrintsLast c' → c' = c) := by
  have hno {rest : List (List Byte)} {r : Result} : Next.ofResult rest r ≠ .stops c' := by
    rcases r with _ | ⟨s, ok⟩
    · exact fun h => Next.noConfusion h
    · exact fun h => Next.noConfusion h
  unfold runop at hstop
  cases hargs : c.args with
  | nil =>
    simp only [hargs, Next.stops.injEq] at hstop
    exact ⟨by rw [hstop], fun _ => hstop.symm⟩
  | cons arg rest =>
    cases hfind : findOp arg with
    | none =>
      simp only [hargs, hfind, Next.stops.injEq] at hstop
      exact ⟨by rw [hstop], fun _ => hstop.symm⟩
    | some op =>
      simp only [hargs, hfind] at hstop
      split at hstop
      next htwo =>
        cases rest with
        | nil =>
          simp only [Next.stops.injEq] at hstop
          subst hstop
          exact ⟨rfl, fun hlast => by simpa using hlast.2.2⟩
        | cons arg2 rest =>
          cases hstack : c.state.stack with
          | nil => simp [hstack] at hstop
          | cons a stack =>
            simp only [hstack] at hstop
            split at hstop
            · simp at hstop
            · simp only [Next.stops.injEq] at hstop
              subst hstop
              exact ⟨rfl, fun hlast => by simpa using hlast.2.2⟩
            · split at hstop
              · simp only [Next.stops.injEq] at hstop
                subst hstop
                exact ⟨rfl, fun hlast => by simpa using hlast.2.2⟩
              · exact absurd hstop hno
      next htwo =>
        cases hstack : c.state.stack with
        | nil => simp [hstack] at hstop
        | cons a stack =>
          simp only [hstack] at hstop
          split at hstop
          · simp only [Next.stops.injEq] at hstop
            subst hstop
            exact ⟨rfl, fun hlast => by simpa using hlast.2.2⟩
          · exact absurd hstop hno

/-- A step that continues ran the operation of the arguments. -/
theorem runop_continues (hstep : runop inet h c = .continues c') : ∃ op a b ok,
    operands inet h c = some (op, a, b) ∧ op.run a b h c.state = some (some (c'.state, ok)) ∧
      c'.args = c.args.drop (if b.isSome then 2 else 1) ∧ c'.status = if ok then 0 else 1 := by
  cases hop : operands inet h c with
  | none => exact absurd hstep ((runop_stops hop).2 c')
  | some o =>
    obtain ⟨op, a, b⟩ := o
    have hargs := continues_args hop hstep
    rw [runop_operands hop] at hstep
    rcases hrun : op.run a b h c.state with _ | _ | ⟨s, ok⟩
    · simp [hrun] at hstep
    · simp [hrun, Next.ofResult] at hstep
    · simp only [hrun, Next.ofResult, Next.continues.injEq] at hstep
      subst hstep
      exact ⟨op, a, b, ok, rfl, hrun, hargs, rfl⟩

end

section

variable {inet : Inet} {h : Host} {c : Config} {op : Op} {a : Cidr} {b : Option Cidr}

/-- An operation that drops an entry takes no argument, and print counts as printed. -/
theorem run_drop {s' : State} {ok : Bool} (hop : operands inet h c = some (op, a, b))
    (hdrop : op.effect = .drop) (hrun : op.run a b h c.state = some (some (s', ok))) : b = none ∧
      s'.printed = (c.state.printed || op == .print) := by
  obtain ⟨arg, rest, stack, -, -, hstack, hb⟩ := operands_cases hop
  have hone : ¬(op.f4a2.isSome ∨ op.f6a2.isSome) := by
    cases op <;> first | decide | exact absurd hdrop (by decide)
  obtain rfl : b = none := Option.not_isSome_iff_eq_none.mp fun h => hone (hb.mp h)
  refine ⟨rfl, ?_⟩
  have hpop : c.state.cidrPop.1.printed = c.state.printed := by
    unfold State.cidrPop
    rw [hstack]
  have hprint (o : Output) : (c.state.qprintf o).cidrPop.1.printed = true := by
    unfold State.cidrPop State.qprintf
    rw [hstack]
  unfold Op.run Op.a1 at hrun
  cases hfamily : a.family with
  | inet =>
    rw [hfamily, if_pos rfl] at hrun
    cases op with
    | pop =>
      have hrun : some c.state.cidrPop = some (s', ok) := Option.some.inj hrun
      have hs' : s' = c.state.cidrPop.1 := (congrArg Prod.fst (Option.some.inj hrun)).symm
      rw [hs', hpop]
      simp
    | print =>
      have hrun : cidrPrint4 h a c.state = some (s', ok) := Option.some.inj hrun
      unfold cidrPrint4 at hrun
      rw [if_neg (not_not.mpr hfamily)] at hrun
      obtain ⟨rfl, -⟩ := Prod.mk.inj (Option.some.inj hrun)
      rw [hprint]
      simp
    | _ => exact absurd hdrop (by decide)
  | inet6 =>
    rw [hfamily, if_neg (by decide)] at hrun
    cases op with
    | pop =>
      have hrun : some c.state.cidrPop = some (s', ok) := Option.some.inj hrun
      have hs' : s' = c.state.cidrPop.1 := (congrArg Prod.fst (Option.some.inj hrun)).symm
      rw [hs', hpop]
      simp
    | print =>
      have hrun : cidrPrint6 h a c.state = some (s', ok) := Option.some.inj hrun
      unfold cidrPrint6 at hrun
      rw [if_neg (not_not.mpr hfamily)] at hrun
      obtain ⟨rfl, -⟩ := Prod.mk.inj (Option.some.inj hrun)
      rw [hprint]
      simp
    | _ => exact absurd hdrop (by decide)

theorem run_drop_some {s : State} (hdrop : op.effect = .drop) (hdefined : op.Defined a none) :
    ∃ r, op.run a none h s = some (some r) := by
  have hsupported : op.run a none h s ≠ none := by
    unfold Op.run Op.a1
    cases a.family <;> cases op <;> first | exact Option.some_ne_none _ | exact absurd hdrop (by decide)
  rcases hrun : op.run a none h s with _ | _ | r
  · exact absurd hrun hsupported
  · exact absurd hdefined (run_undefined.mp hrun)
  · exact ⟨r, rfl⟩

/-- Between the steps an empty stack is one that nothing asks for any more. -/
def Settled (c : Config) : Prop := c.state.stack = [] → ¬Begins c.args ∧ ¬PrintsLast c

theorem printsLast_drops {s : State} {rest : List Cidr} (hs : s.stack = a :: rest) : ∃ s',
    (if a.family = .inet then cidrPrint4 else cidrPrint6) h a s = some (s', true) ∧
      Effect.drop.Holds s.stack s'.stack := by
  cases hfamily : a.family with
  | inet =>
    rw [if_pos rfl]
    have hhas := has_print4 (h := h) hs hfamily
    unfold cidrPrint4 at hhas ⊢
    rw [if_neg (not_not.mpr hfamily)] at hhas ⊢
    exact ⟨_, rfl, hhas _ _ rfl⟩
  | inet6 =>
    rw [if_neg (by decide)]
    have hhas := has_print6 (h := h) hs hfamily
    unfold cidrPrint6 at hhas ⊢
    rw [if_neg (not_not.mpr hfamily)] at hhas ⊢
    exact ⟨_, rfl, hhas _ _ rfl⟩

theorem settled_next {c' : Config} (hsafe : StackSafe inet h c) (hstep : runop inet h c = .continues c') :
    Settled c' := by
  obtain ⟨op, a, b, ok, hop, hrun, hargs, -⟩ := runop_continues hstep
  obtain ⟨arg, rest, stack, hcargs, -, hstack, -⟩ := operands_cases hop
  obtain ⟨hcontains, -, hlast⟩ := hsafe op a b hop
  have heffect := run_has hrun hstack hcontains _ _ rfl
  intro hempty
  rw [hempty, hstack] at heffect
  cases he : op.effect with
  | query =>
    rw [he] at heffect
    exact nomatch heffect
  | compute =>
    rw [he] at heffect
    obtain ⟨n, hn⟩ := heffect
    exact nomatch hn
  | resize =>
    rw [he] at heffect
    obtain ⟨_, _, _, -, hn⟩ := heffect
    exact nomatch hn
  | drop =>
    rw [he] at heffect
    obtain ⟨a', ha'⟩ := heffect
    obtain ⟨rfl, hprinted⟩ := run_drop hop he hrun
    have htail : c'.args = c.args.tail := hargs.trans List.drop_one
    obtain ⟨hbegins, hpop⟩ := hlast he (hstack.trans (by rw [(List.cons.inj ha').2]))
    refine ⟨htail ▸ hbegins, fun hprints => ?_⟩
    have hprinted := hprinted.symm.trans hprints.2.1
    rw [Bool.or_eq_false_iff, beq_eq_false_iff_ne] at hprinted
    cases op with
    | pop => exact absurd (hpop rfl (htail ▸ hprints.1)) (by rw [hprinted.1]; decide)
    | print => exact hprinted.2 rfl
    | _ => exact absurd he (by decide)

/-- A safe step keeps to the discipline. -/
theorem disciplined_of_safe (hsettled : Settled c) (hsafe : StackSafe inet h c) :
    Disciplined inet h c := by
  unfold Disciplined
  cases hrun : runop inet h c with
  | crash =>
    obtain ⟨hbegins, hempty⟩ := runop_crash.mp hrun
    exact (hsettled hempty).1 hbegins
  | undefined =>
    cases hop : operands inet h c with
    | none => exact (runop_stops hop).1 hrun
    | some o => exact run_undefined.mp ((runop_undefined hop).mp hrun) (hsafe _ _ _ hop).2.1
  | exits status => trivial
  | stops c' =>
    intro hlast
    obtain rfl := (runop_stops_state hrun).2 hlast
    cases hstack : c'.state.stack with
    | nil => exact absurd hlast (hsettled hstack).2
    | cons a rest => exact ⟨a, rest, rfl, hstack ▸ printsLast_drops hstack⟩
  | continues c' =>
    obtain ⟨op, a, b, ok, hop, hresult, -⟩ := runop_continues hrun
    obtain ⟨arg, rest, stack, hargs, hfind, hstack, -⟩ := operands_cases hop
    exact ⟨arg, op, by rw [hargs]; rfl, hfind, run_has hresult hstack (hsafe op a b hop).1 _ _ rfl⟩

theorem defined_of_disciplined (hc : Disciplined inet h c) (hop : operands inet h c = some (op, a, b)) :
    op.Defined a b := by
  by_contra hno
  unfold Disciplined at hc
  rw [(runop_undefined hop).mpr (run_undefined.mpr hno)] at hc
  exact hc

/-- The question of contains breaks the discipline on every IPv6 address. -/
theorem inet_of_disciplined (hc : Disciplined inet h c)
    (hop : operands inet h c = some (.contains, a, b)) : a.family = .inet := by
  obtain ⟨arg, rest, stack, hargs, hfind, hstack, hb⟩ := operands_cases hop
  obtain ⟨b, rfl⟩ := Option.isSome_iff_exists.mp (hb.mpr (.inl rfl))
  have hdefined := defined_of_disciplined hc hop
  cases hfamily : a.family with
  | inet => rfl
  | inet6 =>
    have hrun : Op.contains.run a (some b) h c.state = some (cidrContains6 h a b c.state) := by
      unfold Op.run Op.a2
      rw [hfamily]
      rfl
    rcases hresult : cidrContains6 h a b c.state with _ | ⟨s, ok⟩
    · rw [hresult] at hrun
      exact absurd (run_undefined.mp hrun) (not_not.mpr hdefined)
    · have hstep := runop_operands hop
      rw [hrun, hresult] at hstep
      unfold Disciplined at hc
      rw [hstep] at hc
      obtain ⟨arg', op', harg, hop', heffect⟩ := hc
      obtain rfl : arg = arg' := by simpa [hargs] using harg
      obtain rfl : Op.contains = op' := Option.some.inj (hfind.symm.trans hop')
      have hsame : s.stack = c.state.stack := heffect
      rw [cidrContains6_pushes hresult] at hsame
      exact absurd hsame (List.cons_ne_self _ _)

/-- A step that is not safe breaks the discipline, at once or in the next step. -/
theorem safe_of_disciplined (hc : Disciplined inet h c)
    (hnext : ∀ c', runop inet h c = .continues c' → Disciplined inet h c') : StackSafe inet h c := by
  intro op a b hop
  obtain ⟨arg, rest, stack, -, -, hstack, hb⟩ := operands_cases hop
  have hdefined := defined_of_disciplined hc hop
  refine ⟨fun hcontains => ?_, hdefined, fun hdrop hlast => ?_⟩
  · subst hcontains
    exact inet_of_disciplined hc hop
  · have hone : ¬(op.f4a2.isSome ∨ op.f6a2.isSome) := by
      cases op <;> first | decide | exact absurd hdrop (by decide)
    obtain rfl : b = none := Option.not_isSome_iff_eq_none.mp fun h => hone (hb.mp h)
    obtain ⟨⟨s, ok⟩, hrun⟩ := run_drop_some hdrop hdefined
    have hstep := runop_operands hop
    rw [hrun] at hstep
    have hempty : s.stack = [] := by
      obtain ⟨a', ha'⟩ := hdrop ▸ run_has hrun hstack (fun h => absurd (h ▸ hdrop) (by decide)) _ _ rfl
      exact (List.cons.inj (hlast.symm.trans ha')).2.symm
    have hc' := hnext _ hstep
    have htail : c.args.drop (if (none : Option Cidr).isSome then 2 else 1) = c.args.tail := List.drop_one
    rw [htail] at hc'
    unfold Disciplined at hc'
    refine ⟨fun hbegins => ?_, fun hpop hnil => ?_⟩
    · rw [runop_crash.mpr ⟨hbegins, hempty⟩] at hc'
      exact hc'
    · obtain ⟨-, hkept⟩ := run_drop hop hdrop hrun
      rw [hnil] at hc'
      by_contra hprinted
      have hprints : PrintsLast ⟨[], if ok then 0 else 1, s⟩ := by
        refine ⟨rfl, ?_, ?_⟩
        · rw [hkept, hpop, Bool.eq_false_iff.mpr hprinted]
          rfl
        · show (if ok then 0 else 1) < 2
          split <;> decide
      obtain ⟨a', rest', hstack', -⟩ := hc' hprints
      exact nomatch hempty.symm.trans hstack'

end

section

variable {inet : Inet} {h : Host} {base : List Byte} {args : List (List Byte)}

theorem settled_start {s : State} (hs : start inet h base = some s) : Settled ⟨args, 0, s⟩ := by
  obtain ⟨a, -, rfl⟩ := Option.map_eq_some_iff.mp hs
  exact fun hempty => nomatch hempty

theorem runAll_ne_crash (hall : ∀ c, Reach inet h base args c → Disciplined inet h c) {fuel : ℕ}
    {c : Config} (hc : Reach inet h base args c) : runAll inet h fuel c ≠ .crash := by
  induction fuel generalizing c with
  | zero => exact fun h => Next.noConfusion h
  | succ fuel ih =>
    have hdisciplined := hall c hc
    unfold Disciplined at hdisciplined
    unfold runAll
    cases hrun : runop inet h c with
    | crash =>
      rw [hrun] at hdisciplined
      exact hdisciplined.elim
    | undefined => exact fun h => Next.noConfusion h
    | exits status => exact fun h => Next.noConfusion h
    | stops c' =>
      rw [hrun] at hdisciplined
      dsimp only
      split_ifs with hleft hprints
      · exact fun h => Next.noConfusion h
      · obtain ⟨a, rest, hstack, -⟩ := hdisciplined ⟨not_not.mp hleft, hprints⟩
        rw [hstack]
        exact fun h => Next.noConfusion h
      · exact fun h => Next.noConfusion h
    | continues c' => exact ih (.step c c' hc hrun)

theorem main_ne_crash (hall : ∀ c, Reach inet h base args c → Disciplined inet h c) :
    main inet h (base :: args) ≠ .crash := by
  unfold main
  cases args with
  | nil => exact fun h => Next.noConfusion h
  | cons arg args =>
    cases hs : start inet h base with
    | none =>
      simp only [hs]
      exact fun h => Next.noConfusion h
    | some s =>
      simp only [hs]
      exact runAll_ne_crash hall (.start s (List.cons_ne_nil arg args) hs)

/-- The runs that keep to the discipline are those with a safe step everywhere. -/
theorem discipline_iff :
    ((∀ c, Reach inet h base args c → Disciplined inet h c) ∧ main inet h (base :: args) ≠ .crash) ↔
      ∀ c, Reach inet h base args c → StackSafe inet h c := by
  constructor
  · rintro ⟨hall, -⟩ c hc
    exact safe_of_disciplined (hall c hc) fun c' hstep => hall c' (.step c c' hc hstep)
  · intro hall
    have hdisciplined (c : Config) (hc : Reach inet h base args c) : Disciplined inet h c := by
      refine disciplined_of_safe ?_ (hall c hc)
      cases hc with
      | start s _ hs => exact settled_start hs
      | step c c' hc hstep => exact settled_next (hall c hc) hstep
    exact ⟨hdisciplined, main_ne_crash hdisciplined⟩

end

/-- inet_pton where it is asked for ::1. -/
def loopback : Inet where
  pton4 _ := none
  pton6 s := if s = bytesOf "::1" then some fun i => if i = 15 then 1 else 0 else none

/-- A question leaves a copy of the address on the stack, and pop as the only operation a
null pointer for the last print. -/
theorem not_disciplined :
    (∃ c, Reach loopback .little (bytesOf "::1") [bytesOf "contains", bytesOf "::1"] c ∧
      ¬Disciplined loopback .little c) ∧
    main tenNet .little [bytesOf "10.0.0.255", bytesOf "pop"] = .crash ∧
    main tenNet .little [bytesOf "10.0.0.255", bytesOf "print", bytesOf "print"] = .crash := by
  refine ⟨⟨_, Reach.start _ (by simp) rfl, fun hc => ?_⟩, rfl, rfl⟩
  exact absurd (inet_of_disciplined hc rfl) (by decide)

end Iot7688.Owipcalc
