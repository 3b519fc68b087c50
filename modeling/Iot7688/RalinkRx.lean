import Iot7688.Lib.Run
import Mathlib.Data.List.Basic

/-!
The receive buffers of the ralink ethernet driver. A buffer is allocated and mapped before
the one that a packet arrived in is unmapped and handed on. When no skb can be built for
the packet the new buffer is released, but it stays mapped.
-/
namespace Iot7688.RalinkRx

open Lib

/-- What is done with a buffer. -/
inductive Op
  | alloc
  | map
  | unmap
  | release
  | hand
  deriving DecidableEq

/-- The ring and the buffers. Buffers are numbered in the order in which they are
allocated, and the address of a mapping is the number of its buffer; none stands for a
null pointer or the address 0. -/
structure Rx where
  /-- Whether rx_data and rx_dma are allocated. -/
  data : Bool
  dma : Bool
  rxData : ℕ → Option ℕ
  /-- The rxd1 fields of rx_dma. -/
  rxDma : ℕ → Option ℕ
  calcIdx : ℕ
  next : ℕ
  hist : ℕ → List Op

def Rx.op (s : Rx) (o : Op) (b : ℕ) : Rx :=
  { s with hist := Function.update s.hist b (s.hist b ++ [o]) }

def Rx.opAt (s : Rx) (o : Op) : Option ℕ → Rx
  | none => s
  | some b => s.op o b

def Rx.fresh (s : Rx) : Rx := { s.op .alloc s.next with next := s.next + 1 }

def cleanSlot (s : Rx) (i : ℕ) : Rx :=
  match s.rxData i with
  | none => s
  | some b =>
      let s := if s.dma then s.opAt .unmap (s.rxDma i) else s
      s.op .release b

def feCleanRx (size : ℕ) (s : Rx) : Rx :=
  let s :=
    if s.data then
      { (List.range size).foldl cleanSlot s with data := false, rxData := fun _ => none }
    else s
  if s.dma then { s with dma := false, rxDma := fun _ => none } else s

/-- Which allocations and mappings of fe_alloc_rx succeed. -/
structure AllocInput where
  data : Bool
  frag : ℕ → Bool
  dma : Bool
  map : ℕ → Bool

/-- The loop over the buffers, for the `n` slots from `i` on. -/
def allocFrags (frag : ℕ → Bool) : ℕ → ℕ → Rx → Bool × Rx
  | 0, _, s => (true, s)
  | n + 1, i, s =>
      if frag i then
        allocFrags frag n (i + 1)
          { s.fresh with rxData := Function.update s.rxData i (some s.next) }
      else (false, s)

/-- The loop over the mappings. -/
def mapFrags (map : ℕ → Bool) : ℕ → ℕ → Rx → Bool × Rx
  | 0, _, s => (true, s)
  | n + 1, i, s =>
      if map i then
        mapFrags map n (i + 1)
          { s.opAt .map (s.rxData i) with rxDma := Function.update s.rxDma i (s.rxData i) }
      else (false, s)

def feAllocRx (size : ℕ) (input : AllocInput) (s : Rx) : Bool × Rx :=
  if input.data = false then (false, s)
  else
    let r := allocFrags input.frag size 0 { s with data := true, rxData := fun _ => none }
    if r.1 = false then r
    else if input.dma = false then (false, r.2)
    else
      let r := mapFrags input.map size 0 { r.2 with dma := true, rxDma := fun _ => none }
      if r.1 = false then r else (true, { r.2 with calcIdx := size - 1 })

/-- What happens in one pass of the loop: whether the hardware completed the descriptor, and
whether the allocation, the mapping and build_skb succeed. -/
structure Outcome where
  done : Bool
  alloc : Bool
  map : Bool
  build : Bool

/-- A pass of the loop for a descriptor that is completed. -/
def receive (size : ℕ) (o : Outcome) (s : Rx) : Rx :=
  let idx := (s.calcIdx + 1) &&& (size - 1)
  if o.alloc = false then { s with calcIdx := idx }
  else
    let newData := s.next
    if o.map = false then { s.fresh.op .release newData with calcIdx := idx }
    else
      let t := s.fresh.op .map newData
      if o.build = false then { t.op .release newData with calcIdx := idx }
      else
        { (t.opAt .unmap (s.rxDma idx)).opAt .hand (s.rxData idx) with
          rxData := Function.update s.rxData idx (some newData)
          rxDma := Function.update s.rxDma idx (some newData)
          calcIdx := idx }

/-- At most `n` passes, up to a descriptor that is not completed. -/
def fePollRx (size : ℕ) : ℕ → (ℕ → Outcome) → Rx → Rx
  | 0, _, s => s
  | n + 1, outcomes, s =>
      if (outcomes 0).done then
        fePollRx size n (fun k => outcomes (k + 1)) (receive size (outcomes 0) s)
      else s

structure Poll where
  budget : ℕ
  outcomes : ℕ → Outcome

def next (size : ℕ) (s : Rx) (p : Poll) : Rx := fePollRx size p.budget p.outcomes s

/-- A buffer is mapped and unmapped in turn, and it is not mapped when it is released. -/
def legal : Bool → List Op → Bool
  | _, [] => true
  | mapped, .map :: ops => !mapped && legal true ops
  | mapped, .unmap :: ops => mapped && legal false ops
  | mapped, .release :: ops => !mapped && legal mapped ops
  | mapped, _ :: ops => legal mapped ops

def Live (ops : List Op) : Prop := .alloc ∈ ops ∧ .release ∉ ops ∧ .hand ∉ ops

/-- What is to hold of the ring and of all buffers between the calls of fe_poll_rx. -/
structure Right (size : ℕ) (s : Rx) : Prop where
  slots : ∀ i < size, ∃ b, s.rxData i = some b ∧ s.rxDma i = some b ∧ Live (s.hist b) ∧
    (s.hist b).count .map = (s.hist b).count .unmap + 1
  alone : ∀ i < size, ∀ j < size, s.rxData i = s.rxData j → i = j
  handed : ∀ b, .hand ∈ s.hist b → ∀ i < size, s.rxData i ≠ some b
  unmapped : ∀ b, (∀ i < size, s.rxData i ≠ some b) →
    (s.hist b).count .unmap = (s.hist b).count .map
  legal : ∀ b, legal false (s.hist b) = true

/-- What is to hold behind fe_clean_rx: nothing is mapped, and every buffer was released or
handed on, once. -/
structure Cleaned (s : Rx) : Prop where
  arrays : s.data = false ∧ s.dma = false
  unmapped : ∀ b, (s.hist b).count .unmap = (s.hist b).count .map
  released : ∀ b, .alloc ∈ s.hist b → (s.hist b).count .release + (s.hist b).count .hand = 1
  legal : ∀ b, legal false (s.hist b) = true

/-- Every pass that comes to build_skb builds an skb. -/
def builds : ℕ → (ℕ → Outcome) → Prop
  | 0, _ => True
  | n + 1, outcomes =>
      (outcomes 0).done = true →
        ((outcomes 0).alloc = true → (outcomes 0).map = true → (outcomes 0).build = true) ∧
          builds n fun k => outcomes (k + 1)

/-- The ways of a buffer that is not in the ring any more. -/
def Gone (ops : List Op) : Prop :=
  ops = [.alloc, .release] ∨ ops = [.alloc, .map, .unmap, .release] ∨
    ops = [.alloc, .map, .unmap, .hand]

/-- No ring, before fe_alloc_rx. -/
structure Idle (s : Rx) : Prop where
  data : s.data = false
  dma : s.dma = false
  rxDma : ∀ i, s.rxDma i = none
  out : ∀ b < s.next, Gone (s.hist b)
  fresh : ∀ b, s.next ≤ b → s.hist b = []

/-- A ring that may be partly filled. -/
structure Held (size : ℕ) (s : Rx) : Prop where
  slot : ∀ i < size, ∀ b, s.rxData i = some b → b < s.next ∧
    ((s.rxDma i = none ∧ s.hist b = [.alloc]) ∨ (s.rxDma i = some b ∧ s.hist b = [.alloc, .map]))
  inj : ∀ i < size, ∀ j < size, ∀ b, s.rxData i = some b → s.rxData j = some b → i = j
  out : ∀ b < s.next, (∀ i < size, s.rxData i ≠ some b) → Gone (s.hist b)
  fresh : ∀ b, s.next ≤ b → s.hist b = []
  data : s.data = true
  dma : s.dma = false → ∀ i, s.rxDma i = none

/-- A ring that is filled and mapped. -/
structure Inv (size : ℕ) (s : Rx) : Prop where
  held : Held size s
  full : ∀ i < size, ∃ b, s.rxData i = some b ∧ s.rxDma i = some b

section

variable {s : Rx} {b c : ℕ} {o : Op}

theorem op_hist_self (s : Rx) (o : Op) (b : ℕ) : (s.op o b).hist b = s.hist b ++ [o] :=
  Function.update_self _ _ _

theorem op_hist_ne (h : c ≠ b) : (s.op o b).hist c = s.hist c := Function.update_of_ne h _ _

theorem opAt_hist_ne {b : Option ℕ} (h : b ≠ some c) : (s.opAt o b).hist c = s.hist c := by
  cases b with
  | none => rfl
  | some b => exact op_hist_ne fun hc => h (congrArg some hc.symm)

theorem opAt_fields (s : Rx) (o : Op) (b : Option ℕ) : (s.opAt o b).data = s.data ∧
    (s.opAt o b).dma = s.dma ∧ (s.opAt o b).rxData = s.rxData ∧ (s.opAt o b).rxDma = s.rxDma ∧
      (s.opAt o b).next = s.next := by
  cases b with
  | none => exact ⟨rfl, rfl, rfl, rfl, rfl⟩
  | some b => exact ⟨rfl, rfl, rfl, rfl, rfl⟩

theorem fresh_hist_self (h : s.hist s.next = []) : s.fresh.hist s.next = [.alloc] :=
  (op_hist_self s .alloc s.next).trans (by rw [h]; rfl)

theorem fresh_hist_ne (h : c ≠ s.next) : s.fresh.hist c = s.hist c := op_hist_ne h

end

section

variable {size : ℕ} {s : Rx}

theorem Gone.balanced {ops : List Op} (h : Gone ops) :
    ops.count .unmap = ops.count .map ∧ ops.count .release + ops.count .hand = 1 ∧
      legal false ops = true := by
  rcases h with rfl | rfl | rfl
  · decide
  · decide
  · decide

theorem Idle.cleaned (h : Idle s) : Cleaned s := by
  have hops (b : ℕ) : Gone (s.hist b) ∨ s.hist b = [] := by
    rcases Nat.lt_or_ge b s.next with hlt | hge
    · exact Or.inl (h.out b hlt)
    · exact Or.inr (h.fresh b hge)
  refine ⟨⟨h.data, h.dma⟩, fun b => ?_, fun b halloc => ?_, fun b => ?_⟩
  · rcases hops b with hgone | hnil
    · exact hgone.balanced.1
    · rw [hnil]
      rfl
  · rcases hops b with hgone | hnil
    · exact hgone.balanced.2.1
    · rw [hnil] at halloc
      exact absurd halloc List.not_mem_nil
  · rcases hops b with hgone | hnil
    · exact hgone.balanced.2.2
    · rw [hnil]
      rfl

/-- What the loop of fe_clean_rx leaves behind the first `k` slots. -/
structure Swept (s : Rx) (k : ℕ) (t : Rx) : Prop where
  dma : t.dma = s.dma
  rxData : t.rxData = s.rxData
  rxDma : t.rxDma = s.rxDma
  next : t.next = s.next
  seen : ∀ i < k, ∀ b, s.rxData i = some b → Gone (t.hist b)
  rest : ∀ b, (∀ i < k, s.rxData i ≠ some b) → t.hist b = s.hist b

/-- A buffer in a slot that is cleaned is unmapped, if it is mapped, and released. -/
theorem cleanSlot_some (h : Held size s) {i b : ℕ} (hi : i < size) {t : Rx} (ht : Swept s i t)
    (hslot : s.rxData i = some b) :
    (cleanSlot t i).dma = t.dma ∧ (cleanSlot t i).rxData = t.rxData ∧
      (cleanSlot t i).rxDma = t.rxDma ∧ (cleanSlot t i).next = t.next ∧
      Gone ((cleanSlot t i).hist b) ∧ ∀ c, c ≠ b → (cleanSlot t i).hist c = t.hist c := by
  have hhist : t.hist b = s.hist b :=
    ht.rest b fun j hj hb => Nat.ne_of_lt hj (h.inj j (Nat.lt_trans hj hi) i hi b hb hslot)
  unfold cleanSlot
  rw [ht.rxData, hslot, ht.rxDma]
  dsimp only
  rcases (h.slot i hi b hslot).2 with ⟨hnone, hops⟩ | ⟨hmapped, hops⟩
  · have hsame : (if t.dma = true then t.opAt .unmap (s.rxDma i) else t) = t := by
      rw [hnone]
      exact ite_self t
    rw [hsame]
    refine ⟨rfl, ht.rxData, ht.rxDma, rfl, Or.inl ?_, fun c hc => op_hist_ne hc⟩
    rw [op_hist_self, hhist, hops]
    rfl
  · have hdma : t.dma = true := by
      rw [ht.dma]
      by_contra hoff
      have hnone := h.dma (Bool.eq_false_iff.mpr hoff) i
      exact absurd (hnone.symm.trans hmapped) (by simp)
    have hunmapped : (if t.dma = true then t.opAt .unmap (s.rxDma i) else t) = t.op .unmap b := by
      rw [if_pos hdma, hmapped]
      rfl
    rw [hunmapped]
    refine ⟨rfl, ht.rxData, ht.rxDma, rfl, Or.inr (Or.inl ?_), fun c hc => ?_⟩
    · rw [op_hist_self, op_hist_self, hhist, hops]
      rfl
    · rw [op_hist_ne hc, op_hist_ne hc]

theorem swept_all (h : Held size s) : Swept s size ((List.range size).foldl cleanSlot s) := by
  refine foldl_range (fun k t => Swept s k t)
    ⟨rfl, rfl, rfl, rfl, fun _ hi => absurd hi (Nat.not_lt_zero _), fun _ _ => rfl⟩ ?_
  intro i hi t ht
  cases hslot : s.rxData i with
  | none =>
    have hkept : cleanSlot t i = t := by
      unfold cleanSlot
      rw [ht.rxData, hslot]
    rw [hkept]
    refine ⟨ht.dma, ht.rxData, ht.rxDma, ht.next, fun j hj b hb => ?_, fun b hb => ?_⟩
    · rcases Nat.lt_succ_iff_lt_or_eq.mp hj with hlt | rfl
      · exact ht.seen j hlt b hb
      · exact absurd (hslot.symm.trans hb) (by simp)
    · exact ht.rest b fun j hj => hb j (Nat.lt_succ_of_lt hj)
  | some b =>
    obtain ⟨hdma, hdata, hrxd, hnext, hgone, hrest⟩ := cleanSlot_some h hi ht hslot
    refine ⟨hdma.trans ht.dma, hdata.trans ht.rxData, hrxd.trans ht.rxDma, hnext.trans ht.next,
      fun j hj c hc => ?_, fun c hc => ?_⟩
    · by_cases hcb : c = b
      · rw [hcb]
        exact hgone
      · have hlt : j < i := by
          rcases Nat.lt_succ_iff_lt_or_eq.mp hj with hlt | rfl
          · exact hlt
          · exact absurd (Option.some.inj (hc.symm.trans hslot)) hcb
        rw [hrest c hcb]
        exact ht.seen j hlt c hc
    · have hcb : c ≠ b := by
        rintro rfl
        exact hc i (Nat.lt_succ_self i) hslot
      rw [hrest c hcb]
      exact ht.rest c fun j hj => hc j (Nat.lt_succ_of_lt hj)

/-- A ring is cleaned, whether it is filled or not. -/
theorem idle_feCleanRx (h : Held size s) : Idle (feCleanRx size s) := by
  have hswept := swept_all h
  have hout (b : ℕ) (hb : b < s.next) : Gone (((List.range size).foldl cleanSlot s).hist b) := by
    by_cases hin : ∃ i < size, s.rxData i = some b
    · obtain ⟨i, hi, hslot⟩ := hin
      exact hswept.seen i hi b hslot
    · have hnot : ∀ i < size, s.rxData i ≠ some b := fun i hi hslot => hin ⟨i, hi, hslot⟩
      rw [hswept.rest b hnot]
      exact h.out b hb hnot
  have hfresh (b : ℕ) (hb : s.next ≤ b) :
      ((List.range size).foldl cleanSlot s).hist b = [] := by
    rw [hswept.rest b fun i hi hslot => Nat.not_lt_of_le hb (h.slot i hi b hslot).1]
    exact h.fresh b hb
  unfold feCleanRx
  rw [if_pos h.data]
  dsimp only
  rw [hswept.dma]
  cases hdma : s.dma with
  | true =>
    refine ⟨rfl, rfl, fun _ => rfl, fun b hb => hout b ?_, fun b hb => hfresh b ?_⟩
    · exact hswept.next ▸ hb
    · exact hswept.next ▸ hb
  | false =>
    refine ⟨rfl, rfl, fun i => ?_, fun b hb => hout b ?_, fun b hb => hfresh b ?_⟩
    · show ((List.range size).foldl cleanSlot s).rxDma i = none
      rw [hswept.rxDma]
      exact h.dma hdma i
    · exact hswept.next ▸ hb
    · exact hswept.next ▸ hb

/-- The ring with one more buffer. -/
theorem held_frag (h : Held size s) {i : ℕ} (hi : i < size) (hnone : s.rxData i = none)
    (hrxd : s.rxDma i = none) :
    Held size { s.fresh with rxData := Function.update s.rxData i (some s.next) } := by
  have hslot (j b : ℕ) (hb : Function.update s.rxData i (some s.next) j = some b) :
      (j = i ∧ b = s.next) ∨ (j ≠ i ∧ s.rxData j = some b) := by
    by_cases hj : j = i
    · rw [hj, Function.update_self] at hb
      exact Or.inl ⟨hj, (Option.some.inj hb).symm⟩
    · rw [Function.update_of_ne hj] at hb
      exact Or.inr ⟨hj, hb⟩
  refine ⟨fun j hj b hb => ?_, fun j hj k hk b hb hb' => ?_, fun b hb hout => ?_,
    fun b hb => ?_, h.data, h.dma⟩
  · rcases hslot j b hb with ⟨rfl, rfl⟩ | ⟨-, hold⟩
    · exact ⟨Nat.lt_succ_self _, Or.inl ⟨hrxd, fresh_hist_self (h.fresh _ (Nat.le_refl _))⟩⟩
    · obtain ⟨hlt, hops⟩ := h.slot j hj b hold
      refine ⟨Nat.lt_succ_of_lt hlt, ?_⟩
      rw [show s.fresh.hist b = s.hist b from fresh_hist_ne (Nat.ne_of_lt hlt)]
      exact hops
  · rcases hslot j b hb with ⟨rfl, rfl⟩ | ⟨-, hold⟩
    · rcases hslot k _ hb' with ⟨rfl, -⟩ | ⟨-, hold'⟩
      · rfl
      · exact absurd (h.slot k hk _ hold').1 (Nat.lt_irrefl _)
    · rcases hslot k b hb' with ⟨rfl, rfl⟩ | ⟨-, hold'⟩
      · exact absurd (h.slot j hj _ hold).1 (Nat.lt_irrefl _)
      · exact h.inj j hj k hk b hold hold'
  · have hne : b ≠ s.next := by
      rintro rfl
      exact hout i hi (Function.update_self _ _ _)
    have hlt : b < s.next := Nat.lt_of_le_of_ne (Nat.le_of_lt_succ hb) hne
    show Gone (s.fresh.hist b)
    rw [fresh_hist_ne hne]
    refine h.out b hlt fun j hj hold => ?_
    by_cases hji : j = i
    · rw [hji, hnone] at hold
      exact absurd hold (by simp)
    · exact hout j hj ((Function.update_of_ne hji _ _).trans hold)
  · show s.fresh.hist b = []
    rw [fresh_hist_ne (Nat.ne_of_gt hb)]
    exact h.fresh b (Nat.le_of_succ_le hb)

theorem allocFrags_spec (frag : ℕ → Bool) {n i : ℕ} {s : Rx} (hsize : i + n = size)
    (h : Held size s) (hrest : ∀ j, i ≤ j → s.rxData j = none)
    (hfull : ∀ j < i, s.rxData j ≠ none) (hrxd : ∀ j, s.rxDma j = none) :
    Held size (allocFrags frag n i s).2 ∧ (∀ j, (allocFrags frag n i s).2.rxDma j = none) ∧
      ((allocFrags frag n i s).1 = true →
        ∀ j < size, (allocFrags frag n i s).2.rxData j ≠ none) := by
  induction n generalizing i s with
  | zero => exact ⟨h, hrxd, fun _ j hj => hfull j (by omega)⟩
  | succ n ih =>
    unfold allocFrags
    cases hfrag : frag i with
    | false => exact ⟨h, hrxd, fun hok => absurd hok Bool.false_ne_true⟩
    | true =>
      rw [if_pos rfl]
      refine ih (by omega) (held_frag h (by omega) (hrest i (Nat.le_refl i)) (hrxd i))
        (fun j hj => ?_) (fun j hj => ?_) hrxd
      · exact (Function.update_of_ne (Nat.ne_of_gt hj) _ _).trans (hrest j (by omega))
      · by_cases hji : j = i
        · rw [hji]
          show Function.update s.rxData i (some s.next) i ≠ none
          rw [Function.update_self]
          simp
        · show Function.update s.rxData i (some s.next) j ≠ none
          rw [Function.update_of_ne hji]
          exact hfull j (by omega)

/-- The ring with one more mapping. -/
theorem held_map (h : Held size s) {i b : ℕ} (hi : i < size) (hslot : s.rxData i = some b)
    (hrxd : s.rxDma i = none) (hdma : s.dma = true) :
    Held size { s.op .map b with rxDma := Function.update s.rxDma i (some b) } := by
  have hops : s.hist b = [.alloc] := by
    rcases (h.slot i hi b hslot).2 with ⟨-, hops⟩ | ⟨hmapped, -⟩
    · exact hops
    · exact absurd (hrxd.symm.trans hmapped) (by simp)
  refine ⟨fun j hj c hc => ?_, h.inj, fun c hc hout => ?_, fun c hc => ?_, h.data, fun hoff => ?_⟩
  · obtain ⟨hlt, hold⟩ := h.slot j hj c hc
    refine ⟨hlt, ?_⟩
    by_cases hji : j = i
    · obtain rfl : c = b := Option.some.inj ((hji ▸ hc).symm.trans hslot)
      rw [hji]
      refine Or.inr ⟨Function.update_self _ _ _, ?_⟩
      rw [op_hist_self, hops]
      rfl
    · have hcb : c ≠ b := by
        rintro rfl
        exact hji (h.inj j hj i hi c hc hslot)
      show (Function.update s.rxDma i (some b) j = none ∧ (s.op .map b).hist c = _) ∨
        (Function.update s.rxDma i (some b) j = some c ∧ (s.op .map b).hist c = _)
      rw [Function.update_of_ne hji, op_hist_ne hcb]
      exact hold
  · have hcb : c ≠ b := by
      rintro rfl
      exact hout i hi hslot
    show Gone ((s.op .map b).hist c)
    rw [op_hist_ne hcb]
    exact h.out c hc hout
  · have hcb : c ≠ b := Nat.ne_of_gt (Nat.lt_of_lt_of_le (h.slot i hi b hslot).1 hc)
    exact (op_hist_ne hcb).trans (h.fresh c hc)
  · exact absurd (hdma.symm.trans hoff) (by decide)

theorem mapFrags_spec (map : ℕ → Bool) {n i : ℕ} {s : Rx} (hsize : i + n = size)
    (h : Held size s) (hfull : ∀ j < size, s.rxData j ≠ none) (hdma : s.dma = true)
    (hrest : ∀ j, i ≤ j → s.rxDma j = none) (hmapped : ∀ j < i, s.rxDma j = s.rxData j) :
    Held size (mapFrags map n i s).2 ∧ ((mapFrags map n i s).1 = true →
      Inv size (mapFrags map n i s).2) := by
  induction n generalizing i s with
  | zero =>
    refine ⟨h, fun _ => ⟨h, fun j hj => ?_⟩⟩
    obtain ⟨b, hb⟩ := Option.ne_none_iff_exists'.mp (hfull j hj)
    exact ⟨b, hb, (hmapped j (by omega)).trans hb⟩
  | succ n ih =>
    unfold mapFrags
    cases hmap : map i with
    | false => exact ⟨h, fun hok => absurd hok Bool.false_ne_true⟩
    | true =>
      obtain ⟨b, hb⟩ := Option.ne_none_iff_exists'.mp (hfull i (by omega))
      rw [if_pos rfl, hb]
      refine ih (by omega) (held_map h (by omega) hb (hrest i (Nat.le_refl i)) hdma) hfull hdma
        (fun j hj => ?_) fun j hj => ?_
      · exact (Function.update_of_ne (Nat.ne_of_gt hj) _ _).trans (hrest j (by omega))
      · by_cases hji : j = i
        · rw [hji]
          exact (Function.update_self _ _ _).trans hb.symm
        · exact (Function.update_of_ne hji _ _).trans (hmapped j (by omega))

/-- fe_alloc_rx leaves a ring that can be cleaned, and a filled one when it succeeds. -/
theorem feAllocRx_spec (h : Idle s) (input : AllocInput) :
    (feAllocRx size input s = (false, s) ∨ Held size (feAllocRx size input s).2) ∧
      ((feAllocRx size input s).1 = true → Inv size (feAllocRx size input s).2) := by
  have hempty : Held size { s with data := true, rxData := fun _ => none } :=
    ⟨fun _ _ _ hb => absurd hb (by simp), fun _ _ _ _ _ hb => absurd hb (by simp),
      fun b hb _ => h.out b hb, h.fresh, rfl, fun _ => h.rxDma⟩
  obtain ⟨hheld, hrxd, hfull⟩ := allocFrags_spec input.frag (Nat.zero_add size) hempty
    (fun _ _ => rfl) (fun _ hj => absurd hj (Nat.not_lt_zero _)) h.rxDma
  unfold feAllocRx
  dsimp only
  generalize allocFrags input.frag size 0 { s with data := true, rxData := fun _ => none } = r
    at hheld hrxd hfull ⊢
  cases input.data with
  | false => exact ⟨Or.inl rfl, fun hok => absurd hok Bool.false_ne_true⟩
  | true =>
    rw [if_neg (by decide)]
    cases hfrag : r.1 with
    | false =>
      rw [if_pos rfl]
      exact ⟨Or.inr hheld, fun hok => absurd (hfrag.symm.trans hok) Bool.false_ne_true⟩
    | true =>
      rw [if_neg (by decide)]
      cases input.dma with
      | false => exact ⟨Or.inr hheld, fun hok => absurd hok Bool.false_ne_true⟩
      | true =>
        rw [if_neg (by decide)]
        have hring : Held size { r.2 with dma := true, rxDma := fun _ => none } := by
          refine ⟨fun j hj b hb => ?_, hheld.inj, hheld.out, hheld.fresh, hheld.data,
            fun _ _ => rfl⟩
          obtain ⟨hlt, ⟨-, hops⟩ | ⟨hmapped, -⟩⟩ := hheld.slot j hj b hb
          · exact ⟨hlt, Or.inl ⟨rfl, hops⟩⟩
          · exact absurd ((hrxd j).symm.trans hmapped) (by simp)
        obtain ⟨hheld', hinv⟩ := mapFrags_spec input.map (Nat.zero_add size) hring
          (hfull hfrag) rfl (fun _ _ => rfl) fun _ hj => absurd hj (Nat.not_lt_zero _)
        generalize mapFrags input.map size 0 { r.2 with dma := true, rxDma := fun _ => none } = t
          at hheld' hinv ⊢
        cases hmap : t.1 with
        | false =>
          rw [if_pos rfl]
          exact ⟨Or.inr hheld', fun hok => absurd (hmap.symm.trans hok) Bool.false_ne_true⟩
        | true =>
          rw [if_neg (by decide)]
          have hfilled := hinv hmap
          have hidx : Inv size { t.2 with calcIdx := size - 1 } :=
            ⟨⟨hfilled.held.slot, hfilled.held.inj, hfilled.held.out, hfilled.held.fresh,
              hfilled.held.data, hfilled.held.dma⟩, hfilled.full⟩
          exact ⟨Or.inr hidx.held, fun _ => hidx⟩

/-- A filled ring is as it is to be. -/
theorem Inv.right (h : Inv size s) : Right size s := by
  have hslot (i : ℕ) (hi : i < size) (b : ℕ) (hb : s.rxData i = some b) :
      s.rxDma i = some b ∧ s.hist b = [.alloc, .map] := by
    obtain ⟨b', hb', hmapped⟩ := h.full i hi
    obtain rfl : b = b' := Option.some.inj (hb.symm.trans hb')
    rcases (h.held.slot i hi b hb).2 with ⟨hnone, -⟩ | hops
    · exact absurd (hnone.symm.trans hmapped) (by simp)
    · exact hops
  have hops (b : ℕ) : (∃ i < size, s.rxData i = some b) ∨ Gone (s.hist b) ∨ s.hist b = [] := by
    rcases Nat.lt_or_ge b s.next with hlt | hge
    · by_cases hin : ∃ i < size, s.rxData i = some b
      · exact Or.inl hin
      · exact Or.inr (Or.inl (h.held.out b hlt fun i hi hb => hin ⟨i, hi, hb⟩))
    · exact Or.inr (Or.inr (h.held.fresh b hge))
  refine ⟨fun i hi => ?_, fun i hi j hj heq => ?_, fun b hhand i hi hb => ?_, fun b hout => ?_,
    fun b => ?_⟩
  · obtain ⟨b, hb, hmapped⟩ := h.full i hi
    refine ⟨b, hb, hmapped, ?_⟩
    rw [(hslot i hi b hb).2]
    unfold Live
    decide
  · obtain ⟨b, hb, -⟩ := h.full i hi
    exact h.held.inj i hi j hj b hb (heq ▸ hb)
  · rw [(hslot i hi b hb).2] at hhand
    revert hhand
    decide
  · rcases hops b with ⟨i, hi, hb⟩ | hgone | hnil
    · exact absurd hb (hout i hi)
    · exact hgone.balanced.1
    · rw [hnil]
      rfl
  · rcases hops b with ⟨i, hi, hb⟩ | hgone | hnil
    · rw [(hslot i hi b hb).2]
      rfl
    · exact hgone.balanced.2.2
    · rw [hnil]
      rfl

theorem slot_lt (hsize : 0 < size) (idx : ℕ) : idx &&& (size - 1) < size :=
  Nat.lt_of_le_pred hsize Nat.and_le_right

/-- The ring does not change when a new buffer is gone again. -/
theorem inv_gone (h : Inv size s) {t : Rx} (hdata : t.rxData = s.rxData)
    (hrxd : t.rxDma = s.rxDma) (hflags : t.data = s.data ∧ t.dma = s.dma)
    (hnext : t.next = s.next + 1) (hnew : Gone (t.hist s.next))
    (hrest : ∀ b, b ≠ s.next → t.hist b = s.hist b) : Inv size t := by
  refine ⟨⟨fun i hi b hb => ?_, fun i hi j hj b hb hb' => ?_, fun b hb hout => ?_, fun b hb => ?_,
    hflags.1.trans h.held.data, fun hoff => ?_⟩, fun i hi => ?_⟩
  · rw [hdata] at hb
    obtain ⟨hlt, hops⟩ := h.held.slot i hi b hb
    rw [hnext, hrxd, hrest b (Nat.ne_of_lt hlt)]
    exact ⟨Nat.lt_succ_of_lt hlt, hops⟩
  · rw [hdata] at hb hb'
    exact h.held.inj i hi j hj b hb hb'
  · by_cases hb' : b = s.next
    · rw [hb']
      exact hnew
    · rw [hrest b hb']
      rw [hnext] at hb
      rw [hdata] at hout
      exact h.held.out b (Nat.lt_of_le_of_ne (Nat.le_of_lt_succ hb) hb') hout
  · rw [hnext] at hb
    rw [hrest b (Nat.ne_of_gt hb)]
    exact h.held.fresh b (Nat.le_of_succ_le hb)
  · rw [hrxd]
    exact h.held.dma (hflags.2 ▸ hoff)
  · rw [hdata, hrxd]
    exact h.full i hi

/-- The new buffer takes the slot of the one that is handed on. -/
theorem inv_handed (h : Inv size s) {idx old : ℕ} (hidx : idx < size)
    (hold : s.rxData idx = some old) {t : Rx}
    (hdata : t.rxData = Function.update s.rxData idx (some s.next))
    (hrxd : t.rxDma = Function.update s.rxDma idx (some s.next))
    (hflags : t.data = s.data ∧ t.dma = s.dma) (hnext : t.next = s.next + 1)
    (hnew : t.hist s.next = [.alloc, .map]) (hgone : Gone (t.hist old))
    (hrest : ∀ b, b ≠ s.next → b ≠ old → t.hist b = s.hist b) : Inv size t := by
  have hslot (i b : ℕ) (hb : t.rxData i = some b) :
      (i = idx ∧ b = s.next) ∨ (i ≠ idx ∧ s.rxData i = some b) := by
    rw [hdata] at hb
    by_cases hi : i = idx
    · rw [hi, Function.update_self] at hb
      exact Or.inl ⟨hi, (Option.some.inj hb).symm⟩
    · rw [Function.update_of_ne hi] at hb
      exact Or.inr ⟨hi, hb⟩
  refine ⟨⟨fun i hi b hb => ?_, fun i hi j hj b hb hb' => ?_, fun b hb hout => ?_, fun b hb => ?_,
    hflags.1.trans h.held.data, fun hoff => ?_⟩, fun i hi => ?_⟩
  · rw [hnext]
    rcases hslot i b hb with ⟨rfl, rfl⟩ | ⟨hne, hb'⟩
    · refine ⟨Nat.lt_succ_self _, Or.inr ⟨?_, hnew⟩⟩
      rw [hrxd, Function.update_self]
    · obtain ⟨hlt, hops⟩ := h.held.slot i hi b hb'
      have hother : b ≠ old := by
        rintro rfl
        exact hne (h.held.inj i hi idx hidx b hb' hold)
      rw [hrxd, Function.update_of_ne hne, hrest b (Nat.ne_of_lt hlt) hother]
      exact ⟨Nat.lt_succ_of_lt hlt, hops⟩
  · rcases hslot i b hb with ⟨rfl, rfl⟩ | ⟨-, hi'⟩
    · rcases hslot j _ hb' with ⟨rfl, -⟩ | ⟨-, hj'⟩
      · rfl
      · exact absurd (h.held.slot j hj _ hj').1 (Nat.lt_irrefl _)
    · rcases hslot j b hb' with ⟨rfl, rfl⟩ | ⟨-, hj'⟩
      · exact absurd (h.held.slot i hi _ hi').1 (Nat.lt_irrefl _)
      · exact h.held.inj i hi j hj b hi' hj'
  · have hne : b ≠ s.next := by
      rintro rfl
      refine hout idx hidx ?_
      rw [hdata, Function.update_self]
    by_cases hb' : b = old
    · rw [hb']
      exact hgone
    · rw [hrest b hne hb']
      rw [hnext] at hb
      refine h.held.out b (Nat.lt_of_le_of_ne (Nat.le_of_lt_succ hb) hne) fun i hi hslot' => ?_
      by_cases hi' : i = idx
      · rw [hi', hold] at hslot'
        exact hb' (Option.some.inj hslot').symm
      · refine hout i hi ?_
        rw [hdata, Function.update_of_ne hi']
        exact hslot'
  · rw [hnext] at hb
    have hlt := (h.held.slot idx hidx old hold).1
    rw [hrest b (Nat.ne_of_gt hb) (Nat.ne_of_gt (Nat.lt_of_lt_of_le hlt (Nat.le_of_succ_le hb)))]
    exact h.held.fresh b (Nat.le_of_succ_le hb)
  · obtain ⟨b, -, hmapped⟩ := h.full idx hidx
    have hnone := h.held.dma (hflags.2 ▸ hoff) idx
    exact absurd (hnone.symm.trans hmapped) (by simp)
  · rw [hdata, hrxd]
    by_cases hi' : i = idx
    · rw [hi', Function.update_self, Function.update_self]
      exact ⟨s.next, rfl, rfl⟩
    · rw [Function.update_of_ne hi', Function.update_of_ne hi']
      exact h.full i hi

/-- A pass that does not fail at build_skb keeps the ring in order. -/
theorem inv_receive (hsize : 0 < size) (h : Inv size s) {o : Outcome}
    (hbuild : o.alloc = true → o.map = true → o.build = true) : Inv size (receive size o s) := by
  have hidx := slot_lt hsize (s.calcIdx + 1)
  have hnil := h.held.fresh s.next (Nat.le_refl _)
  unfold receive
  dsimp only
  generalize (s.calcIdx + 1) &&& (size - 1) = idx at hidx ⊢
  cases halloc : o.alloc with
  | false =>
    rw [if_pos rfl]
    exact ⟨⟨h.held.slot, h.held.inj, h.held.out, h.held.fresh, h.held.data, h.held.dma⟩, h.full⟩
  | true =>
    rw [if_neg (by decide)]
    cases hmap : o.map with
    | false =>
      rw [if_pos rfl]
      refine inv_gone h rfl rfl ⟨rfl, rfl⟩ rfl (Or.inl ?_) fun b hb => ?_
      · show (s.fresh.op .release s.next).hist s.next = _
        rw [op_hist_self, fresh_hist_self hnil]
        rfl
      · show (s.fresh.op .release s.next).hist b = _
        rw [op_hist_ne hb, fresh_hist_ne hb]
    | true =>
      obtain ⟨old, hold, hmapped⟩ := h.full idx hidx
      rw [if_neg (by decide), if_neg (by rw [hbuild halloc hmap]; decide), hold, hmapped]
      obtain ⟨hlt, ⟨hnone, -⟩ | ⟨-, hops⟩⟩ := h.held.slot idx hidx old hold
      · exact absurd (hnone.symm.trans hmapped) (by simp)
      have hne : old ≠ s.next := Nat.ne_of_lt hlt
      refine inv_handed h hidx hold rfl rfl ⟨rfl, rfl⟩ rfl ?_ (Or.inr (Or.inr ?_))
        fun b hb hb' => ?_
      · show (((s.fresh.op .map s.next).op .unmap old).op .hand old).hist s.next = _
        rw [op_hist_ne hne.symm, op_hist_ne hne.symm, op_hist_self, fresh_hist_self hnil]
        rfl
      · show (((s.fresh.op .map s.next).op .unmap old).op .hand old).hist old = _
        rw [op_hist_self, op_hist_self, op_hist_ne hne, fresh_hist_ne hne, hops]
        rfl
      · show (((s.fresh.op .map s.next).op .unmap old).op .hand old).hist b = _
        rw [op_hist_ne hb', op_hist_ne hb', op_hist_ne hb, fresh_hist_ne hb]

/-- A buffer that was released while it was mapped, and that nobody knows any more. -/
structure Lost (size : ℕ) (b : ℕ) (s : Rx) : Prop where
  lt : b < s.next
  hist : s.hist b = [.alloc, .map, .release]
  out : ∀ i < size, s.rxData i ≠ some b ∧ s.rxDma i ≠ some b

theorem Lost.not_right {b : ℕ} (h : Lost size b s) : ¬Right size s := by
  intro hright
  have hcount := hright.unmapped b fun i hi => (h.out i hi).1
  rw [h.hist] at hcount
  exact absurd hcount (by decide)

theorem Lost.receive {b : ℕ} (hsize : 0 < size) (h : Lost size b s) (o : Outcome) :
    Lost size b (receive size o s) := by
  have hidx := slot_lt hsize (s.calcIdx + 1)
  have hne : b ≠ s.next := Nat.ne_of_lt h.lt
  unfold RalinkRx.receive
  dsimp only
  generalize (s.calcIdx + 1) &&& (size - 1) = idx at hidx ⊢
  split
  · exact ⟨h.lt, h.hist, h.out⟩
  split
  · refine ⟨Nat.lt_succ_of_lt h.lt, ?_, h.out⟩
    show (s.fresh.op .release s.next).hist b = _
    rw [op_hist_ne hne, fresh_hist_ne hne, h.hist]
  split
  · refine ⟨Nat.lt_succ_of_lt h.lt, ?_, h.out⟩
    show ((s.fresh.op .map s.next).op .release s.next).hist b = _
    rw [op_hist_ne hne, op_hist_ne hne, fresh_hist_ne hne, h.hist]
  · obtain ⟨hdata, hrxd⟩ := h.out idx hidx
    refine ⟨?_, ?_, fun i hi => ?_⟩
    · show b < (((s.fresh.op .map s.next).opAt .unmap (s.rxDma idx)).opAt .hand
        (s.rxData idx)).next
      rw [(opAt_fields _ _ _).2.2.2.2, (opAt_fields _ _ _).2.2.2.2]
      exact Nat.lt_succ_of_lt h.lt
    · show (((s.fresh.op .map s.next).opAt .unmap (s.rxDma idx)).opAt .hand
        (s.rxData idx)).hist b = _
      rw [opAt_hist_ne hdata, opAt_hist_ne hrxd, op_hist_ne hne, fresh_hist_ne hne, h.hist]
    · by_cases hi' : i = idx
      · show Function.update s.rxData idx (some s.next) i ≠ some b ∧
          Function.update s.rxDma idx (some s.next) i ≠ some b
        rw [hi', Function.update_self, Function.update_self]
        exact ⟨fun hb => hne (Option.some.inj hb).symm, fun hb => hne (Option.some.inj hb).symm⟩
      · show Function.update s.rxData idx (some s.next) i ≠ some b ∧
          Function.update s.rxDma idx (some s.next) i ≠ some b
        rw [Function.update_of_ne hi', Function.update_of_ne hi']
        exact h.out i hi

theorem Lost.fePollRx {b n : ℕ} (hsize : 0 < size) (h : Lost size b s) (outcomes : ℕ → Outcome) :
    Lost size b (fePollRx size n outcomes s) := by
  induction n generalizing s outcomes with
  | zero => exact h
  | succ n ih =>
    unfold RalinkRx.fePollRx
    split
    · exact ih (h.receive hsize _) _
    · exact h

/-- When build_skb fails the new buffer is lost. -/
theorem lost_of_failed (h : Inv size s) {o : Outcome} (halloc : o.alloc = true)
    (hmap : o.map = true) (hbuild : o.build = false) : Lost size s.next (receive size o s) := by
  have hnil := h.held.fresh s.next (Nat.le_refl _)
  unfold receive
  dsimp only
  rw [if_neg (by rw [halloc]; decide), if_neg (by rw [hmap]; decide), if_pos hbuild]
  refine ⟨Nat.lt_succ_self _, ?_, fun i hi => ?_⟩
  · show ((s.fresh.op .map s.next).op .release s.next).hist s.next = _
    rw [op_hist_self, op_hist_self, fresh_hist_self hnil]
    rfl
  · obtain ⟨b, hb, hmapped⟩ := h.full i hi
    have hlt := (h.held.slot i hi b hb).1
    show s.rxData i ≠ _ ∧ s.rxDma i ≠ _
    rw [hb, hmapped]
    exact ⟨fun heq => Nat.ne_of_lt hlt (Option.some.inj heq),
      fun heq => Nat.ne_of_lt hlt (Option.some.inj heq)⟩

/-- A poll leaves the ring in order if it builds every skb, and else it loses a buffer. -/
theorem poll_iff (hsize : 0 < size) {n : ℕ} (h : Inv size s) (outcomes : ℕ → Outcome) :
    (Right size (fePollRx size n outcomes s) ↔ builds n outcomes) ∧
      (builds n outcomes → Inv size (fePollRx size n outcomes s)) := by
  induction n generalizing s outcomes with
  | zero => exact ⟨iff_of_true h.right trivial, fun _ => h⟩
  | succ n ih =>
    unfold fePollRx builds
    cases hdone : (outcomes 0).done with
    | false =>
      rw [if_neg (by decide)]
      exact ⟨iff_of_true h.right fun hd => absurd hd Bool.false_ne_true, fun _ => h⟩
    | true =>
      rw [if_pos rfl]
      by_cases hbuild : (outcomes 0).alloc = true → (outcomes 0).map = true →
          (outcomes 0).build = true
      · obtain ⟨hiff, hkeep⟩ := ih (inv_receive hsize h hbuild) fun k => outcomes (k + 1)
        rw [hiff]
        exact ⟨⟨fun hrest _ => ⟨hbuild, hrest⟩, fun hall => (hall rfl).2⟩,
          fun hall => hkeep (hall rfl).2⟩
      · obtain ⟨halloc, hrest⟩ := Classical.not_imp.mp hbuild
        obtain ⟨hmap, hfail⟩ := Classical.not_imp.mp hrest
        have hlost := lost_of_failed h halloc hmap (Bool.eq_false_iff.mpr hfail)
        have hwrong := (hlost.fePollRx (n := n) hsize fun k => outcomes (k + 1)).not_right
        exact ⟨iff_of_false hwrong fun hall => hbuild (hall rfl).1,
          fun hall => absurd (hall rfl).1 hbuild⟩

/-- A ring is cleaned right behind fe_alloc_rx, also when that failed. -/
theorem cleaned_alloc (h : Idle s) (input : AllocInput) :
    Cleaned (feCleanRx size (feAllocRx size input s).2) := by
  rcases (feAllocRx_spec h input).1 with hsame | hheld
  · rw [hsame]
    have hkept : feCleanRx size s = s := by
      have hdata : ¬s.data = true := Bool.eq_false_iff.mp h.data
      have hdma : ¬s.dma = true := Bool.eq_false_iff.mp h.dma
      unfold feCleanRx
      rw [if_neg hdata]
      dsimp only
      rw [if_neg hdma]
    rw [hkept]
    exact h.cleaned
  · exact (idle_feCleanRx hheld).cleaned

end

/-- From any state without a ring: when fe_alloc_rx fails everything is cleaned; when it
succeeds the ring is in order between all polls, and everything is cleaned behind them, if
no poll fails to build an skb, and only then. -/
theorem receive_buffers_iff {size : ℕ} (hsize : 0 < size) {s : Rx} (h : Idle s)
    (input : AllocInput) (polls : List Poll) :
    ((feAllocRx size input s).1 = false →
      Cleaned (feCleanRx size (feAllocRx size input s).2)) ∧
    ((feAllocRx size input s).1 = true →
      Right size (feAllocRx size input s).2 ∧
      ((Every (next size) (fun s p => Right size (next size s p)) (feAllocRx size input s).2 polls ∧
        Cleaned (feCleanRx size (polls.foldl (next size) (feAllocRx size input s).2))) ↔
        Every (next size) (fun _ p => builds p.budget p.outcomes) (feAllocRx size input s).2
          polls)) := by
  refine ⟨fun _ => cleaned_alloc h input, fun hok => ?_⟩
  have hinv := (feAllocRx_spec h input).2 hok
  have hkeep (s : Rx) (p : Poll) (h : Inv size s) (hgood : builds p.budget p.outcomes) :
      Inv size (next size s p) := (poll_iff hsize h p.outcomes).2 hgood
  have hiff := every_iff hkeep (fun s p h => (poll_iff hsize h p.outcomes).1) polls hinv
  refine ⟨hinv.right, ⟨fun hright => hiff.mp hright.1, fun hgood => ⟨hiff.mpr hgood, ?_⟩⟩⟩
  exact (idle_feCleanRx (inv_foldl hkeep polls hinv hgood).held).cleaned

/-- The state of a driver that was just probed. -/
def probed : Rx := ⟨false, false, fun _ => none, fun _ => none, 0, 0, fun _ => []⟩

theorem idle_probed : Idle probed :=
  ⟨rfl, rfl, fun _ => rfl, fun b hb => absurd hb (Nat.not_lt_zero b), fun _ _ => rfl⟩

/-- All allocations and mappings succeed. -/
def plenty : AllocInput := ⟨true, fun _ => true, true, fun _ => true⟩

/-- A poll that receives one packet. -/
def onePacket (build : Bool) : Poll := ⟨32, fun k => ⟨k == 0, true, true, build⟩⟩

/-- A ring of four buffers, and one packet. -/
theorem one_packet_received : Cleaned
    (feCleanRx 4 ([onePacket true].foldl (next 4) (feAllocRx 4 plenty probed).2)) :=
  (((receive_buffers_iff (by decide) idle_probed plenty [onePacket true]).2 rfl).2.mpr
    ⟨fun _ => ⟨fun _ _ => rfl, fun hdone => absurd hdone (by decide)⟩, trivial⟩).2

/-- A packet for which no skb can be built leaves a mapping of a released buffer. -/
theorem no_skb_leaks :
    ¬Every (next 4) (fun s p => Right 4 (next 4 s p)) (feAllocRx 4 plenty probed).2
      [onePacket false] := by
  rintro ⟨hright, -⟩
  have hcount := hright.unmapped 4 (by decide)
  exact absurd hcount (by decide)

end Iot7688.RalinkRx
