import Iot7688.OwipcalcOrder

/-!
The sizes of the prefixes on the stack. The parsers of addresses bound them; a plain
number that is an argument is not bounded, and becomes the size of an entry with prefix,
next and prev.
-/
namespace Iot7688.Owipcalc

open Lib

def EntryOk (a : Cidr) : Prop := a.size.toNat ≤ a.family.bits

def EntriesOk (c : Config) : Prop := ∀ a ∈ c.state.stack, EntryOk a

/-- All entries have a size that their family allows, and the next operation neither shifts
by 32 bits or more nor takes an index outside of s6_addr. -/
structure SizeSafe (inet : Inet) (h : Host) (c : Config) : Prop where
  entries : EntriesOk c
  defined : runop inet h c ≠ .undefined

/-- On which operands an operation keeps the sizes, and its shifts and indices, in bounds. -/
def Op.SizeOk (op : Op) (a : Cidr) (b : Option Cidr) : Prop :=
  match a.family with
  | .inet => op.Defined4 a b ∧ (op = .size → ∀ b' ∈ b, b'.size.toNat ≤ 32)
  | .inet6 =>
      match op, b with
      | .next, some b => b.size.toNat ≤ 128
      | .prev, some b => b.size.toNat ≤ 128
      | .size, some b => b.size.toNat ≤ 128
      | .contains, some _ => 1 ≤ a.size.toNat
      | .howmany, some b => b.size < a.size ∨ (b.size - a.size).toNat < 32
      | _, _ => True

def SizeOk (inet : Inet) (h : Host) (c : Config) : Prop :=
  ∀ op a b, operands inet h c = some (op, a, b) → op.SizeOk a b

theorem countBits_le (fuel : ℕ) (x : BitVec 32) : countBits fuel x ≤ fuel := by
  induction fuel generalizing x with
  | zero => exact le_refl 0
  | succ fuel ih =>
    have hbit : (x &&& 1).toNat ≤ 1 := by
      rw [BitVec.toNat_and]
      exact Nat.and_le_right
    unfold countBits
    split
    · exact Nat.zero_le _
    · have hrest := ih (x >>> 1)
      omega

theorem parseSize_le {limit n : ℕ} {p : List Byte} (h : parseSize limit p = some n) : n ≤ limit := by
  unfold parseSize at h
  dsimp only at h
  split at h
  · exact absurd h (by simp)
  · rename_i hok
    obtain rfl := Option.some.inj h
    omega

section

variable {inet : Inet} {h : Host} {s : List Byte} {a : Cidr}

theorem cidrParse4_ok (hparse : cidrParse4 inet h s = some a) : EntryOk a := by
  unfold cidrParse4 at hparse
  split at hparse
  · exact absurd hparse (by simp)
  · dsimp only at hparse
    split at hparse
    · rename_i size addr hsize _
      obtain rfl := Option.some.inj hparse
      have hle : size ≤ 32 := by
        split at hsize
        · exact le_of_eq (Option.some.inj hsize).symm
        · split at hsize
          · obtain ⟨mask, -, rfl⟩ := Option.map_eq_some_iff.mp hsize
            exact countBits_le 32 _
          · exact parseSize_le hsize
      show (BitVec.ofNat 32 size).toNat ≤ 32
      rw [BitVec.toNat_ofNat]
      omega
    · exact absurd hparse (by simp)

theorem cidrParse6_ok (hparse : cidrParse6 inet s = some a) : EntryOk a := by
  unfold cidrParse6 at hparse
  split at hparse
  · exact absurd hparse (by simp)
  · dsimp only at hparse
    split at hparse
    · rename_i size addr hsize _
      obtain rfl := Option.some.inj hparse
      have hle : size ≤ 128 := by
        split at hsize
        · exact le_of_eq (Option.some.inj hsize).symm
        · exact parseSize_le hsize
      show (BitVec.ofNat 32 size).toNat ≤ 128
      rw [BitVec.toNat_ofNat]
      omega
    · exact absurd hparse (by simp)

theorem start_ok {state : State} (hstart : start inet h s = some state) :
    ∀ a ∈ state.stack, EntryOk a := by
  unfold start at hstart
  obtain ⟨a, hparse, rfl⟩ := Option.map_eq_some_iff.mp hstart
  intro a' ha'
  obtain rfl := List.mem_singleton.mp ha'
  split at hparse
  · exact cidrParse6_ok hparse
  · exact cidrParse4_ok hparse

end

/-- An operation leaves on the stack what was there, or entries of good sizes. -/
def Keeps (s : State) (r : Result) : Prop :=
  ∀ s' ok, r = some (s', ok) → ∀ n ∈ s'.stack, n ∈ s.stack ∨ EntryOk n

section

variable {s s' : State} {a b n : Cidr} {ok : Bool} {r r' : Result} {h : Host}

theorem keeps_cons (hs : s'.stack = n :: s.stack) (hn : EntryOk n) : Keeps s (some (s', ok)) := by
  rintro _ _ ⟨⟩ x hx
  rw [hs] at hx
  rcases List.mem_cons.mp hx with rfl | hx
  · exact Or.inr hn
  · exact Or.inl hx

theorem keeps_push (hn : EntryOk n) : Keeps s (some (s.cidrPush n, ok)) := keeps_cons rfl hn

theorem keeps_same (hs : s'.stack = s.stack) : Keeps s (some (s', ok)) := by
  rintro _ _ ⟨⟩ x hx
  exact Or.inl (hs ▸ hx)

theorem keeps_pop : Keeps s (some (s.cidrPop.1, ok)) := by
  rintro _ _ ⟨⟩ x hx
  unfold State.cidrPop at hx
  split at hx
  · exact Or.inl hx
  · rename_i a stack hstack
    exact Or.inl (hstack ▸ List.mem_cons_of_mem a hx)

theorem keeps_none : Keeps s none := fun _ _ hno => absurd hno (by simp)

theorem keeps_ite {p : Prop} [Decidable p] (hr : Keeps s r) (hr' : Keeps s r') :
    Keeps s (if p then r else r') := by
  split
  · exact hr
  · exact hr'

theorem keeps_map {α : Type} {o : Option α} {f : α → State × Bool}
    (hf : ∀ x, Keeps s (some (f x))) : Keeps s (o.map f) := by
  cases o with
  | none => exact keeps_none
  | some x => exact hf x

theorem keeps_answer {yes : Bool} : Keeps s (some (s.qprintf (.answer yes), yes)) :=
  keeps_same rfl

/-- The IPv4 operations that push compute an entry with the old size or all 32 bits. -/
theorem f4a1_keeps {op : Op} {f : Unary} (hf : op.f4a1 = some f) (hfamily : a.family = .inet) :
    Keeps s (f h a s) := by
  have hhost (m : Mem) : EntryOk { a with addr := m, size := 32 } := by
    show (32 : BitVec 32).toNat ≤ a.family.bits
    rw [hfamily]
    decide
  cases op with
  | network => obtain rfl := Option.some.inj hf; exact keeps_map fun bit => keeps_push (hhost _)
  | broadcast => obtain rfl := Option.some.inj hf; exact keeps_map fun bit => keeps_push (hhost _)
  | netmask => obtain rfl := Option.some.inj hf; exact keeps_map fun bit => keeps_push (hhost _)
  | sixToFour =>
    obtain rfl := Option.some.inj hf
    exact keeps_push (show (48 : BitVec 32).toNat ≤ 128 by decide)
  | isPrivate => obtain rfl := Option.some.inj hf; exact keeps_ite keeps_answer keeps_answer
  | linklocal => obtain rfl := Option.some.inj hf; exact keeps_ite keeps_answer keeps_answer
  | quiet => obtain rfl := Option.some.inj hf; exact keeps_same rfl
  | pop => obtain rfl := Option.some.inj hf; exact keeps_pop
  | print => obtain rfl := Option.some.inj hf; exact keeps_ite (keeps_same rfl) keeps_pop
  | _ => exact absurd hf (by simp [Op.f4a1])

theorem f6a1_keeps {op : Op} {f : Unary} (hf : op.f6a1 = some f) (ha : EntryOk a) :
    Keeps s (f h a s) := by
  cases op with
  | network =>
    obtain rfl := Option.some.inj hf
    exact keeps_ite keeps_none (keeps_push ha)
  | linklocal => obtain rfl := Option.some.inj hf; exact keeps_ite keeps_answer keeps_answer
  | ula => obtain rfl := Option.some.inj hf; exact keeps_ite keeps_answer keeps_answer
  | quiet => obtain rfl := Option.some.inj hf; exact keeps_same rfl
  | pop => obtain rfl := Option.some.inj hf; exact keeps_pop
  | print => obtain rfl := Option.some.inj hf; exact keeps_ite (keeps_same rfl) keeps_pop
  | _ => exact absurd hf (by simp [Op.f6a1])

theorem setSize_keeps (hn : EntryOk { a with size := b.size }) : Keeps s (setSize h a b s) := by
  rintro _ _ ⟨⟩ x hx
  rcases List.mem_cons.mp hx with rfl | hx
  · exact Or.inr hn
  · exact Or.inl (List.mem_of_mem_tail hx)

theorem cidrHowmany_keeps : Keeps s (cidrHowmany h a b s) :=
  keeps_ite (keeps_same rfl) (keeps_map fun _ => keeps_same rfl)

/-- Next, prev and prefix give an entry the size of the argument. -/
theorem f4a2_keeps {op : Op} {f : Binary} (hf : op.f4a2 = some f) (hfamily : a.family = .inet)
    (ha : EntryOk a) (hok : op.SizeOk a (some b)) : Keeps s (f h a b s) := by
  unfold Op.SizeOk at hok
  rw [hfamily] at hok
  have hsized (m : Mem) (hb : b.size.toNat ≤ 32) : EntryOk { a with addr := m, size := b.size } := by
    show b.size.toNat ≤ a.family.bits
    rwa [hfamily]
  cases op with
  | add =>
    obtain rfl := Option.some.inj hf
    exact keeps_ite (keeps_push ha) (keeps_ite (keeps_push ha) (keeps_push ha))
  | sub =>
    obtain rfl := Option.some.inj hf
    exact keeps_ite (keeps_push ha) (keeps_ite (keeps_push ha) (keeps_push ha))
  | next =>
    obtain rfl := Option.some.inj hf
    exact keeps_map fun bit => keeps_push (hsized _ hok.1.2)
  | prev =>
    obtain rfl := Option.some.inj hf
    exact keeps_map fun bit => keeps_push (hsized _ hok.1.2)
  | size =>
    obtain rfl := Option.some.inj hf
    exact setSize_keeps (hsized a.addr (hok.2 rfl b rfl))
  | howmany => obtain rfl := Option.some.inj hf; exact cidrHowmany_keeps
  | contains =>
    obtain rfl := Option.some.inj hf
    refine keeps_map fun bit => ?_
    dsimp only
    split
    · exact keeps_answer
    · exact keeps_answer
  | _ => exact absurd hf (by simp [Op.f4a2])

theorem f6a2_keeps {op : Op} {f : Binary} (hf : op.f6a2 = some f) (hfamily : a.family = .inet6)
    (ha : EntryOk a) (hok : op.SizeOk a (some b)) : Keeps s (f h a b s) := by
  unfold Op.SizeOk at hok
  rw [hfamily] at hok
  have hsized (m : Mem) (hb : b.size.toNat ≤ 128) :
      EntryOk { a with addr := m, size := b.size } := by
    show b.size.toNat ≤ a.family.bits
    rwa [hfamily]
  cases op with
  | add => obtain rfl := Option.some.inj hf; exact keeps_ite (keeps_push ha) (keeps_push ha)
  | sub => obtain rfl := Option.some.inj hf; exact keeps_ite (keeps_push ha) (keeps_push ha)
  | next =>
    obtain rfl := Option.some.inj hf
    exact keeps_ite (keeps_push ha) (keeps_ite keeps_none
      (keeps_ite (keeps_push ha) (keeps_push (hsized _ hok))))
  | prev =>
    obtain rfl := Option.some.inj hf
    exact keeps_ite (keeps_push ha) (keeps_ite keeps_none
      (keeps_ite (keeps_push ha) (keeps_push (hsized _ hok))))
  | size =>
    obtain rfl := Option.some.inj hf
    exact setSize_keeps (hsized a.addr hok)
  | howmany => obtain rfl := Option.some.inj hf; exact cidrHowmany_keeps
  | contains =>
    obtain rfl := Option.some.inj hf
    exact keeps_ite keeps_none (keeps_ite (keeps_cons rfl ha) (keeps_cons rfl ha))
  | _ => exact absurd hf (by simp [Op.f6a2])

end

section

variable {inet : Inet} {h : Host} {c c' : Config} {op : Op} {a : Cidr} {b : Option Cidr}

theorem run_keeps {r : Result} {s : State} (hrun : op.run a b h s = some r) (ha : EntryOk a)
    (hok : op.SizeOk a b) : Keeps s r := by
  unfold Op.run Op.a1 Op.a2 at hrun
  cases hfamily : a.family with
  | inet =>
    rw [hfamily, if_pos rfl, if_pos rfl] at hrun
    cases b with
    | none =>
      obtain ⟨f, hf, rfl⟩ := Option.map_eq_some_iff.mp hrun
      exact f4a1_keeps hf hfamily
    | some b =>
      obtain ⟨f, hf, rfl⟩ := Option.map_eq_some_iff.mp hrun
      exact f4a2_keeps hf hfamily ha hok
  | inet6 =>
    rw [hfamily, if_neg (by decide), if_neg (by decide)] at hrun
    cases b with
    | none =>
      obtain ⟨f, hf, rfl⟩ := Option.map_eq_some_iff.mp hrun
      exact f6a1_keeps hf ha
    | some b =>
      obtain ⟨f, hf, rfl⟩ := Option.map_eq_some_iff.mp hrun
      exact f6a2_keeps hf hfamily ha hok

/-- The index of the byte in which a prefix of at most 128 bits ends. -/
theorem sizeIndex_le {b : Cidr} (h : b.size.toNat ≤ 128) : sizeIndex b ≤ 15 := by
  unfold sizeIndex
  omega

theorem rest_toNat {a : Cidr} (h : a.size.toNat ≤ 128) :
    (128 - a.size).toNat = 128 - a.size.toNat := by
  have hsub : (128 - a.size).toNat = (2 ^ 32 - a.size.toNat + 128) % 2 ^ 32 := BitVec.toNat_sub _ _
  omega

theorem ite_ne_none {p : Prop} [Decidable p] {r r' : Result} (hr : r ≠ none) (hr' : r' ≠ none) :
    (if p then r else r') ≠ none := by
  split
  · exact hr
  · exact hr'

section

variable {s : State} {b : Cidr}

theorem cidrNetwork6_ne_none (ha : a.size.toNat ≤ 128) : cidrNetwork6 h a s ≠ none := by
  have hrest := rest_toNat ha
  unfold cidrNetwork6
  dsimp only
  rw [if_neg (by omega)]
  exact Option.some_ne_none _

theorem cidrContains6_ne_none (ha : a.size.toNat ≤ 128) (hpos : 1 ≤ a.size.toNat) :
    cidrContains6 h a b s ≠ none := by
  have hrest := rest_toNat ha
  unfold cidrContains6
  dsimp only
  rw [if_neg (by omega)]
  exact ite_ne_none (Option.some_ne_none _) (Option.some_ne_none _)

theorem cidrNext6_ne_none (hb : b.size.toNat ≤ 128) : cidrNext6 h a b s ≠ none := by
  unfold cidrNext6
  rw [if_neg (not_lt.mpr (sizeIndex_le hb))]
  exact ite_ne_none (Option.some_ne_none _)
    (ite_ne_none (Option.some_ne_none _) (Option.some_ne_none _))

theorem cidrPrev6_ne_none (hb : b.size.toNat ≤ 128) : cidrPrev6 h a b s ≠ none := by
  unfold cidrPrev6
  rw [if_neg (not_lt.mpr (sizeIndex_le hb))]
  exact ite_ne_none (Option.some_ne_none _)
    (ite_ne_none (Option.some_ne_none _) (Option.some_ne_none _))

end

/-- The IPv6 operations stay inside of s6_addr. -/
theorem run6_defined {s : State} (hfamily : a.family = .inet6) (ha : EntryOk a)
    (hok : op.SizeOk a b) : op.run a b h s ≠ some none := by
  unfold EntryOk at ha
  unfold Op.SizeOk at hok
  rw [hfamily] at ha hok
  intro hrun
  unfold Op.run Op.a1 Op.a2 at hrun
  rw [hfamily, if_neg (by decide), if_neg (by decide)] at hrun
  have hsome {r : State × Bool} : some r ≠ none := Option.some_ne_none _
  cases b with
  | none =>
    obtain ⟨f, hf, hnone⟩ := Option.map_eq_some_iff.mp hrun
    cases op with
    | network => obtain rfl := Option.some.inj hf; exact cidrNetwork6_ne_none ha hnone
    | linklocal => obtain rfl := Option.some.inj hf; exact ite_ne_none hsome hsome hnone
    | ula => obtain rfl := Option.some.inj hf; exact ite_ne_none hsome hsome hnone
    | print => obtain rfl := Option.some.inj hf; exact ite_ne_none hsome hsome hnone
    | quiet => obtain rfl := Option.some.inj hf; exact hsome hnone
    | pop => obtain rfl := Option.some.inj hf; exact hsome hnone
    | _ => exact absurd hf (by simp [Op.f6a1])
  | some b =>
    obtain ⟨f, hf, hnone⟩ := Option.map_eq_some_iff.mp hrun
    cases op with
    | add => obtain rfl := Option.some.inj hf; exact ite_ne_none hsome hsome hnone
    | sub => obtain rfl := Option.some.inj hf; exact ite_ne_none hsome hsome hnone
    | next => obtain rfl := Option.some.inj hf; exact cidrNext6_ne_none hok hnone
    | prev => obtain rfl := Option.some.inj hf; exact cidrPrev6_ne_none hok hnone
    | size => obtain rfl := Option.some.inj hf; exact hsome hnone
    | howmany => obtain rfl := Option.some.inj hf; exact cidrHowmany_eq_none.mp hnone hok
    | contains => obtain rfl := Option.some.inj hf; exact cidrContains6_ne_none ha hok hnone
    | _ => exact absurd hf (by simp [Op.f6a2])

theorem run_defined {s : State} (ha : EntryOk a) (hok : op.SizeOk a b) :
    op.run a b h s ≠ some none := by
  cases hfamily : a.family with
  | inet =>
    rw [Ne, run_undefined_iff h s hfamily, not_not]
    unfold Op.SizeOk at hok
    rw [hfamily] at hok
    exact hok.1
  | inet6 => exact run6_defined hfamily ha hok

/-- The entry that the next operation is on. -/
theorem operands_top (hop : operands inet h c = some (op, a, b)) : a ∈ c.state.stack := by
  unfold operands at hop
  split at hop
  · exact absurd hop (by simp)
  · split at hop
    · rename_i a' stack _ hstack
      have htop : a = a' := by
        split at hop
        · split at hop
          · exact absurd hop (by simp)
          · split at hop
            · exact (Prod.mk.inj (Prod.mk.inj (Option.some.inj hop)).2).1.symm
            · exact absurd hop (by simp)
        · exact (Prod.mk.inj (Prod.mk.inj (Option.some.inj hop)).2).1.symm
      rw [htop, hstack]
      exact List.mem_cons_self
    · exact absurd hop (by simp)

/-- Without operands runop does not continue, and meets no operation. -/
theorem runop_stops (hop : operands inet h c = none) :
    runop inet h c ≠ .undefined ∧ ∀ c', runop inet h c ≠ .continues c' := by
  unfold operands at hop
  unfold runop
  cases hargs : c.args with
  | nil => simp
  | cons arg1 rest =>
    cases hfind : findOp arg1 with
    | none => simp [hfind]
    | some op =>
      cases hstack : c.state.stack with
      | nil =>
        cases rest with
        | nil =>
          simp only [hfind]
          split
          · simp
          · simp
        | cons arg2 rest =>
          simp only [hfind]
          split
          · simp
          · simp
      | cons a stack =>
        simp only [hargs, hfind, hstack] at hop ⊢
        split at hop
        · rename_i htwo
          rw [if_pos htwo]
          cases rest with
          | nil => simp
          | cons arg2 rest =>
            dsimp only at hop ⊢
            cases hparse : cidrParse inet h arg2 a.family with
            | invalid => simp
            | exits => simp
            | parsed b => simp [hparse] at hop
        · exact absurd hop (by simp)

/-- One step. -/
theorem step_sizes (hentries : EntriesOk c) (hok : SizeOk inet h c) :
    SizeSafe inet h c ∧ ∀ c', runop inet h c = .continues c' → EntriesOk c' := by
  cases hop : operands inet h c with
  | none =>
    obtain ⟨hdefined, hstops⟩ := runop_stops hop
    exact ⟨⟨hentries, hdefined⟩, fun c' hc' => absurd hc' (hstops c')⟩
  | some o =>
    obtain ⟨op, a, b⟩ := o
    have ha := hentries a (operands_top hop)
    have hsize := hok op a b hop
    refine ⟨⟨hentries, ?_⟩, fun c' hc' n hn => ?_⟩
    · rw [Ne, runop_undefined hop]
      exact run_defined ha hsize
    · rw [runop_operands hop] at hc'
      cases hrun : op.run a b h c.state with
      | none => simp [hrun] at hc'
      | some r =>
        cases r with
        | none => simp [hrun, Next.ofResult] at hc'
        | some r =>
          simp only [hrun, Next.ofResult, Next.continues.injEq] at hc'
          subst hc'
          rcases run_keeps hrun ha hsize r.1 r.2 rfl n hn with hold | hnew
          · exact hentries n hold
          · exact hnew

end

/-- When no step is on an argument or an entry out of bounds, the sizes on the stack and
the shifts and indices of every operation are in bounds. -/
theorem sizes_in_bounds (inet : Inet) (h : Host) (base : List Byte) (args : List (List Byte))
    (hok : ∀ c, Reach inet h base args c → SizeOk inet h c) {c : Config}
    (hc : Reach inet h base args c) : SizeSafe inet h c := by
  have hentries : EntriesOk c := by
    induction hc with
    | start s _ hs => exact start_ok hs
    | step c c' hc hstep ih => exact (step_sizes ih (hok c hc)).2 c' hstep
  exact (step_sizes hentries (hok c hc)).1

/-- The globals for a base address of tenNet. -/
def tenStart (base : String) : State :=
  (start tenNet .little (bytesOf base)).getD ⟨[], false, false, []⟩

/-- An operation that continues has used up its arguments. -/
theorem continues_args {inet : Inet} {h : Host} {c c' : Config} {op : Op} {a : Cidr}
    {b : Option Cidr} (hop : operands inet h c = some (op, a, b))
    (hstep : runop inet h c = .continues c') :
    c'.args = c.args.drop (if b.isSome then 2 else 1) := by
  rw [runop_operands hop] at hstep
  cases hrun : op.run a b h c.state with
  | none => simp [hrun] at hstep
  | some r =>
    cases r with
    | none => simp [hrun, Next.ofResult] at hstep
    | some r =>
      simp only [hrun, Next.ofResult, Next.continues.injEq] at hstep
      rw [← hstep]

theorem sizes_in_bounds_network :
    SizeSafe tenNet .little ⟨[bytesOf "network"], 0, tenStart "10.0.0.255/8"⟩ := by
  have hstart : start tenNet .little (bytesOf "10.0.0.255/8") = some (tenStart "10.0.0.255/8") := rfl
  have hop : operands tenNet .little ⟨[bytesOf "network"], 0, tenStart "10.0.0.255/8"⟩ =
      some (.network, (tenStart "10.0.0.255/8").stack.headD ⟨.inet, 8, fun _ => 0⟩, none) := rfl
  have hreach (c : Config) (hc : Reach tenNet .little (bytesOf "10.0.0.255/8")
      [bytesOf "network"] c) : c = ⟨[bytesOf "network"], 0, tenStart "10.0.0.255/8"⟩ ∨ c.args = [] := by
    induction hc with
    | start s _ hs =>
      obtain rfl := Option.some.inj (hstart.symm.trans hs)
      exact Or.inl rfl
    | step c c' _ hstep ih =>
      rcases ih with rfl | hargs
      · exact Or.inr (continues_args hop hstep)
      · exact absurd hstep ((runop_stops (by simp [operands, hargs])).2 c')
  refine sizes_in_bounds tenNet .little _ _ (fun c hc op a b hcop => ?_)
    (Reach.start _ (by simp) hstart)
  rcases hreach c hc with rfl | hargs
  · rw [hop] at hcop
    obtain ⟨rfl, rfl, rfl⟩ : Op.network = op ∧ _ = a ∧ none = b := by simpa using hcop
    exact ⟨show 1 ≤ 8 ∧ 8 ≤ 32 by decide, fun hno => absurd hno (by decide)⟩
  · simp [operands, hargs] at hcop

/-- A shift by 32 bits for the network of a base address with the prefix 0, and an IPv4 entry
with the prefix 100. -/
theorem sizes_out_of_bounds :
    (∃ c, Reach tenNet .little (bytesOf "10.0.0.255/0") [bytesOf "network"] c ∧
      runop tenNet .little c = .undefined) ∧
    ∃ c, Reach tenNet .little (bytesOf "10.0.0.255") [bytesOf "prefix", bytesOf "100"] c ∧
      ¬EntriesOk c := by
  refine ⟨⟨_, Reach.start _ (by simp) rfl, rfl⟩,
    ⟨_, Reach.step _ _ (Reach.start _ (by simp) rfl) rfl, fun h => ?_⟩⟩
  exact absurd (show 100 ≤ 32 from h _ List.mem_cons_self) (by decide)

end Iot7688.Owipcalc
