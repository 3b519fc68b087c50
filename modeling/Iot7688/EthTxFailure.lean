import Iot7688.EthTxPieces

/-!
What becomes of a packet that fe_start_xmit cannot send. A failure to pad it frees it, and
a full ring leaves it to the caller; when a header copy or a mapping fails the mappings are
undone, but nobody frees the packet. The doorbell is only rung for a packet that is sent.
-/
namespace Iot7688.EthTx

open Lib

def SkbPtr.isSkb : SkbPtr → Bool
  | .skb _ => true
  | _ => false

/-- How many of the first slots hold a buffer. -/
def holding (size : ℕ) (txBuf : ℕ → FeTxBuf) : ℕ :=
  (List.range size).countP fun x => (txBuf x).skb.isSkb

/-- One slot got the buffer; the others are as before or hold none. -/
def Recorded (ring ring' : FeTxRing) (p : Skb) : Prop :=
  ∃ x < ring.txRingSize, (ring'.txBuf x).skb = .skb p ∧
    ∀ y, y ≠ x → (ring'.txBuf y).skb = (ring.txBuf y).skb ∨ (ring'.txBuf y).skb.isSkb = false

/-- The packet is in the ring, or it was freed beside the buffers the ring gave up. -/
def Owned (ring : FeTxRing) (skb : Skb) (out : XmitOut) : Prop :=
  (∃ p, out.queued = some p ∧ Recorded ring out.dev.txRing p ∧ out.freed = []) ∨
    (out.queued = none ∧ skb ∈ out.freed ∧
      out.freed.length + holding ring.txRingSize out.dev.txRing.txBuf =
        holding ring.txRingSize ring.txBuf + 1)

def Mapping.pair (m : Mapping) : U32 × ℕ := (m.addr, m.len)

/-- The mappings made up to the first one that fails. -/
def Skb.Made (host : Host) (skb : Skb) (ms : List Mapping) : Prop :=
  if skb.gso && !host.cowOk then ms = []
  else ∃ m, ms = (skb.mappings host).take m ∧ (∀ i < m, host.map i ≠ none) ∧
    (m < (skb.mappings host).length → host.map m = none)

/-- The indices, and the entries but for some from tx_next_idx on, are as before. -/
structure Untouched (txNum : ℕ) (ring ring' : FeTxRing) : Prop where
  size : ring'.txRingSize = ring.txRingSize
  free : ring'.txFreeIdx = ring.txFreeIdx
  next : ring'.txNextIdx = ring.txNextIdx
  entries : ∀ x, (∀ i < txNum, x ≠ (ring.txNextIdx + i) % ring.txRingSize) →
    ring'.txBuf x = ring.txBuf x ∧ ring'.txDma x = ring.txDma x

/-- On a failure the mappings of the packet are undone and nothing else is changed. -/
def Undone (soc : Soc) (host : Host) (ring : FeTxRing) (skb : Skb) (out : XmitOut) : Prop :=
  match feSkbPadto soc host skb with
  | none => out.unmapped = [] ∧ out.dev.txRing = ring
  | some skb => (∃ ms, skb.Made host ms ∧ out.unmapped = ms.map Mapping.pair) ∧
      Untouched (feCalTxdReq skb) ring out.dev.txRing

/-- What is to hold behind a call of fe_start_xmit. -/
structure NothingLost (soc : Soc) (host : Host) (dev : Dev) (skb : Skb) (out : XmitOut) :
    Prop where
  busy : out.ret = .busy → out.dev.txRing = dev.txRing ∧ out.queued = none ∧
    out.unmapped = [] ∧ out.freed = []
  owned : out.ret = .ok → Owned dev.txRing skb out
  undone : out.ret = .ok → out.queued = none → Undone soc host dev.txRing skb out
  bell : skb.xmitMore = false → out.dev.ctxIdx = out.dev.txRing.txNextIdx

/-- The header copy and the mappings of a packet are all answered. -/
def Skb.Mappable (host : Host) (skb : Skb) : Prop :=
  (skb.gso = true → host.cowOk = true) ∧ ∀ i ≤ (skb.frags.map pieces).sum, host.map i ≠ none

/-- The doorbell may stay silent. -/
def Quiet (dev : Dev) (skb : Skb) : Prop :=
  skb.xmitMore = true ∨ dev.ctxIdx = dev.txRing.txNextIdx

section

variable {size : ℕ} {txBuf txBuf' : ℕ → FeTxBuf}

theorem holding_le (h : ∀ x, (txBuf' x).skb = (txBuf x).skb ∨ (txBuf' x).skb.isSkb = false) :
    holding size txBuf' ≤ holding size txBuf := by
  refine List.countP_mono_left fun x _ hx => ?_
  rcases h x with hsame | hnot
  · rwa [hsame] at hx
  · exact absurd (hnot.symm.trans hx) Bool.false_ne_true

/-- A slot that is cleared gives up its buffer. -/
theorem holding_clear {b : FeTxBuf} (hb : b.skb.isSkb = false) {j : ℕ} (hj : j < size) :
    holding size (Function.update txBuf j b) + (txBuf j).skb.isSkb.toNat =
      holding size txBuf := by
  induction size with
  | zero => exact absurd hj (Nat.not_lt_zero j)
  | succ n ih =>
    unfold holding at ih ⊢
    rw [List.range_succ, List.countP_append, List.countP_append, List.countP_singleton,
      List.countP_singleton]
    rcases Nat.lt_succ_iff_lt_or_eq.mp hj with hlt | rfl
    · have := ih hlt
      rw [Function.update_of_ne (Nat.ne_of_gt hlt)]
      omega
    · have hsame : (List.range j).countP (fun x => (Function.update txBuf j b x).skb.isSkb) =
          (List.range j).countP fun x => (txBuf x).skb.isSkb := by
        refine List.countP_congr fun x hx => ?_
        rw [Function.update_of_ne (Nat.ne_of_lt (List.mem_range.mp hx))]
      rw [hsame, Function.update_self, hb]
      cases (txBuf j).skb.isSkb with
      | true => rfl
      | false => rfl

end

theorem nextTxDespIdx_lt {size x : ℕ} (h : 0 < size) : nextTxDespIdx size x < size := by
  have hle : (x + 1) &&& (size - 1) ≤ size - 1 := Nat.and_le_right
  unfold nextTxDespIdx
  omega

theorem feTxdUnmap_freed (b : FeTxBuf) : (feTxdUnmap b).2.2.length = b.skb.isSkb.toNat := by
  unfold feTxdUnmap
  cases b.skb with
  | null => rfl
  | dummy => rfl
  | skb p => rfl

theorem feTxdUnmap_recorded (b : FeTxBuf) :
    (feTxdUnmap b).2.1 = b.recorded.map Mapping.pair := by
  unfold feTxdUnmap FeTxBuf.recorded
  cases b.single0 with
  | true => cases b.page1 <;> rfl
  | false => cases b.page0 <;> cases b.page1 <;> rfl

/-- The entries that are undone give up just the buffers that are freed. -/
theorem unwind_holding {size : ℕ} (n : ℕ) {j : ℕ} (hj : j < size) (ring : FeTxRing) :
    (unwind size n j ring).2.2.length + holding size (unwind size n j ring).1.txBuf =
      holding size ring.txBuf := by
  induction n generalizing j ring with
  | zero => exact Nat.zero_add _
  | succ n ih =>
    have hrest := ih (nextTxDespIdx_lt (x := j) (Nat.zero_lt_of_lt hj))
      { ring with
        txBuf := Function.update ring.txBuf j (feTxdUnmap (ring.txBuf j)).1
        txDma := Function.update ring.txDma j { ring.txDma j with txd2 := txDmaDesp2Def } }
    have hclear : holding size (Function.update ring.txBuf j (feTxdUnmap (ring.txBuf j)).1) +
        (ring.txBuf j).skb.isSkb.toNat = holding size ring.txBuf := holding_clear rfl hj
    have hfreed := feTxdUnmap_freed (ring.txBuf j)
    rw [unwind, List.length_append]
    dsimp only at hrest ⊢
    omega

section

variable {soc : Soc} {host : Host} {dev : Dev} {skb : Skb} {ring : FeTxRing} {txNum : ℕ}

/-- The loops put no buffer into a slot. -/
def Marked (ring : FeTxRing) (ms : List Mapping) (_ : Bool) (st : MapState) : Prop :=
  ms.length = st.k + 1 ∧ st.j < ring.txRingSize ∧
    ∀ x, (st.txBuf x).skb = (ring.txBuf x).skb ∨ (st.txBuf x).skb.isSkb = false

theorem marked_update {st : MapState}
    (h : ∀ x, (st.txBuf x).skb = (ring.txBuf x).skb ∨ (st.txBuf x).skb.isSkb = false) (j : ℕ)
    {b : FeTxBuf} (hb : b.skb.isSkb = false) (x : ℕ) :
    (Function.update st.txBuf j b x).skb = (ring.txBuf x).skb ∨
      (Function.update st.txBuf j b x).skb.isSkb = false := by
  by_cases hx : x = j
  · rw [hx, Function.update_self]
    exact Or.inr hb
  · rw [Function.update_of_ne hx]
    exact h x

theorem mapPiece_marked (defTxd4 : U32) (ring : FeTxRing) (ms : List Mapping) (st : MapState)
    (addr : U32) (len : ℕ) (last : Bool) (h : Marked ring ms false st) :
    Marked ring (ms ++ [⟨false, addr, len⟩]) last
      (mapPiece ring.txRingSize defTxd4 st addr len last) := by
  obtain ⟨hcount, hj, hmarks⟩ := h
  have hlen : (ms ++ [(⟨false, addr, len⟩ : Mapping)]).length = st.k + 1 + 1 := by
    rw [List.length_append, List.length_singleton, hcount]
  unfold mapPiece
  by_cases hodd : st.k % 2 = 1
  · rw [if_pos hodd]
    exact ⟨hlen, nextTxDespIdx_lt (Nat.zero_lt_of_lt hj), marked_update hmarks _ rfl⟩
  · rw [if_neg hodd]
    cases last with
    | true => exact ⟨hlen, hj, marked_update hmarks _ rfl⟩
    | false => exact ⟨hlen, hj, marked_update hmarks _ rfl⟩

theorem mapHead_marked (soc : Soc) (skb : Skb) (addr : U32)
    (hnext : ring.txNextIdx < ring.txRingSize) :
    Marked ring [⟨true, addr, skb.headlen⟩] false (mapHead soc ring skb addr) := by
  refine ⟨rfl, hnext, fun x => ?_⟩
  by_cases hx : x = ring.txNextIdx
  · refine Or.inr ?_
    rw [hx]
    show (Function.update ring.txBuf ring.txNextIdx _ ring.txNextIdx).skb.isSkb = false
    rw [Function.update_self]
    rfl
  · exact Or.inl (congrArg FeTxBuf.skb (Function.update_of_ne hx _ _))

theorem recorded_of_marked (skb : Skb) {ms : List Mapping} {last : Bool} {st : MapState}
    (h : Marked ring ms last st) : Recorded ring (setLast ring skb st) skb := by
  obtain ⟨-, hj, hmarks⟩ := h
  refine ⟨st.j, hj, ?_, fun y hy => ?_⟩
  · show (Function.update st.txBuf st.j _ st.j).skb = _
    rw [Function.update_self]
  · have hsame : (setLast ring skb st).txBuf y = st.txBuf y := Function.update_of_ne hy _ _
    rw [hsame]
    exact hmarks y

theorem mapFrags_marked (soc : Soc) (host : Host) (skb : Skb) (addr : U32)
    (hnext : ring.txNextIdx < ring.txRingSize) :
    Outcome host (Marked ring) [⟨true, addr, skb.headlen⟩] (skbPieces host 0 skb.frags).flatten
      (endFlag skb.frags) 0
      (mapFrags ring.txRingSize (initTxd soc).txd4 host skb.frags (mapHead soc ring skb addr)) :=
  mapFrags_rule (fun _ _ _ h => h.1) (mapPiece_marked (initTxd soc).txd4 ring) skb.frags
    (mapHead_marked soc skb addr hnext)

/-- The packet is sent if and only if its mappings are all answered; otherwise no more
buffers are freed than the ring gave up. -/
theorem feTxMapDma_owner (soc : Soc) (host : Host) (skb : Skb)
    (hnext : dev.txRing.txNextIdx < dev.txRing.txRingSize) (txNum : ℕ) :
    (skb.Mappable host ∧ ∃ stored ring, Recorded dev.txRing ring stored ∧
      stored.xmitMore = skb.xmitMore ∧ feTxMapDma soc host dev skb txNum =
        ⟨.ok, kick host dev stored ring, some stored, [], []⟩) ∨
    (¬skb.Mappable host ∧ (feTxMapDma soc host dev skb txNum).ret = .ok ∧
      (feTxMapDma soc host dev skb txNum).queued = none ∧
      (feTxMapDma soc host dev skb txNum).freed.length + holding dev.txRing.txRingSize
          (feTxMapDma soc host dev skb txNum).dev.txRing.txBuf ≤
        holding dev.txRing.txRingSize dev.txRing.txBuf) := by
  rcases feTxMapDma_cases soc host dev skb txNum with
    ⟨hfail, hout⟩ | ⟨addr, stored, hcow, hmap, ⟨check, hstored⟩, hloops⟩
  · refine Or.inr ⟨fun h => ?_, by rw [hout], by rw [hout], ?_⟩
    · rcases hfail with hcow | hmap
      · rw [Bool.and_eq_true, Bool.not_eq_true', Bool.eq_false_iff] at hcow
        exact hcow.2 (h.1 hcow.1)
      · exact h.2 0 (Nat.zero_le _) hmap
    · have hclear : holding dev.txRing.txRingSize
          (Function.update dev.txRing.txBuf dev.txRing.txNextIdx .zero) + _ = _ :=
        holding_clear rfl hnext
      rw [hout]
      show 0 + holding dev.txRing.txRingSize (Function.update _ _ _) ≤ _
      omega
  · have hfrags : stored.frags = skb.frags := by rw [hstored]
    have hmore : stored.xmitMore = skb.xmitMore := by rw [hstored]
    have houtcome := mapFrags_marked soc host stored addr hnext
    rw [hfrags] at houtcome
    rcases hloops with ⟨st, hrun, u, hu, hout⟩ | ⟨st, hrun, hout⟩
    · rw [hrun] at houtcome
      obtain ⟨m, hm, ⟨-, -, hmarks⟩, -, hnone⟩ := houtcome
      rw [skbPieces_length] at hm
      refine Or.inr ⟨fun h => ?_, by rw [hout], by rw [hout], ?_⟩
      · rw [Nat.zero_add] at hnone
        exact h.2 (m + 1) hm hnone
      · have hunwind := unwind_holding txNum hnext
          { dev.txRing with txDma := st.txDma, txBuf := st.txBuf }
        rw [← hu] at hunwind
        rw [hout]
        exact hunwind.le.trans (holding_le hmarks)
    · rw [hrun] at houtcome
      obtain ⟨hmarked, -, hmaps⟩ := houtcome
      rw [skbPieces_length] at hmaps
      refine Or.inl ⟨⟨fun hgso => ?_, fun i hi => ?_⟩, stored, _,
        recorded_of_marked stored hmarked, hmore, hout⟩
      · rw [hgso, Bool.true_and, Bool.not_eq_true', Bool.not_eq_false] at hcow
        exact hcow
      · cases i with
        | zero =>
          rw [hmap]
          exact Option.some_ne_none addr
        | succ i =>
          have := hmaps i hi
          rwa [Nat.zero_add] at this

theorem feSkbPadto_more {skb' : Skb} (h : feSkbPadto soc host skb = some skb') :
    skb'.xmitMore = skb.xmitMore := by
  unfold feSkbPadto at h
  split at h
  · rw [← Option.some.inj h]
  · split at h
    · rw [← Option.some.inj h]
    · exact absurd h (by simp)

/-- When a call of fe_start_xmit loses nothing: either the packet is not mapped and the
doorbell may stay silent, or all its mappings are answered. -/
def Safe (soc : Soc) (host : Host) (dev : Dev) (skb : Skb) : Prop :=
  match feSkbPadto soc host skb with
  | none => Quiet dev skb
  | some skb' =>
      if feEmptyTxd dev.txRing ≤ feCalTxdReq skb' then Quiet dev skb else skb'.Mappable host

theorem bell_iff : (skb.xmitMore = false → dev.ctxIdx = dev.txRing.txNextIdx) ↔ Quiet dev skb := by
  unfold Quiet
  cases skb.xmitMore with
  | true => simp
  | false => simp

/-- A call that loses nothing is one that rings the doorbell if it has to and that fails at
no header copy and no mapping. -/
theorem start_xmit_iff (hnext : dev.txRing.txNextIdx < dev.txRing.txRingSize) :
    NothingLost soc host dev skb (feStartXmit soc host dev skb) ↔ Safe soc host dev skb := by
  unfold Safe feStartXmit
  cases hpad : feSkbPadto soc host skb with
  | none =>
    refine ⟨fun h => bell_iff.mp h.bell, fun hquiet => ⟨fun h => ?_, fun _ => ?_, fun _ _ => ?_,
      bell_iff.mpr hquiet⟩⟩
    · exact absurd h (by simp)
    · exact Or.inr ⟨rfl, List.mem_singleton_self _, Nat.add_comm _ _⟩
    · unfold Undone
      rw [hpad]
      exact ⟨rfl, rfl⟩
  | some skb' =>
    by_cases hfull : feEmptyTxd dev.txRing ≤ feCalTxdReq skb'
    · simp only [if_pos hfull]
      refine ⟨fun h => bell_iff.mp h.bell, fun hquiet => ⟨fun _ => ⟨rfl, rfl, rfl, rfl⟩,
        fun h => ?_, fun h => ?_, bell_iff.mpr hquiet⟩⟩
      · exact absurd h (by simp)
      · exact absurd h (by simp)
    · simp only [if_neg hfull]
      rcases feTxMapDma_owner soc host skb' hnext (feCalTxdReq skb') with
        ⟨hmaps, stored, ring, hrecorded, hmore, hout⟩ | ⟨hmaps, hret, hqueued, hfreed⟩
      · simp only [hout]
        refine ⟨fun _ => hmaps, fun _ => ⟨fun h => ?_, fun _ => ?_, fun _ h => ?_, fun h => ?_⟩⟩
        · exact absurd h (by simp)
        · exact Or.inl ⟨stored, rfl, hrecorded, rfl⟩
        · exact absurd h (by simp)
        · rw [← feSkbPadto_more hpad, ← hmore] at h
          simp [kick, h]
      · simp only [hqueued]
        refine ⟨fun h => ?_, fun h => absurd h hmaps⟩
        rcases h.owned hret with ⟨p, hp, -⟩ | ⟨-, -, hcount⟩
        · exact absurd (hqueued.symm.trans hp) (by simp)
        · omega

end

/-- The small packet is sent, and nothing is lost. -/
theorem small_packet_kept : NothingLost mt7628 quietHost (feOpen mt7628 64) smallSkb
    (feStartXmit mt7628 quietHost (feOpen mt7628 64) smallSkb) := by
  have hpad : feSkbPadto mt7628 quietHost smallSkb = some smallSkb := rfl
  have hroom : ¬feEmptyTxd (feOpen mt7628 64).txRing ≤ feCalTxdReq smallSkb := by decide
  have hmaps : smallSkb.Mappable quietHost :=
    ⟨fun h => absurd h (by decide), fun _ _ => Option.some_ne_none 0⟩
  refine (start_xmit_iff (by decide)).mpr ?_
  unfold Safe
  rw [hpad]
  simp only [if_neg hroom]
  exact hmaps

/-- A packet whose first mapping fails is neither in the ring nor freed. -/
theorem unmapped_packet_lost : ¬NothingLost mt7628 { quietHost with map := fun _ => none }
    (feOpen mt7628 64) smallSkb
    (feStartXmit mt7628 { quietHost with map := fun _ => none } (feOpen mt7628 64) smallSkb) := by
  intro h
  rcases h.owned rfl with ⟨p, hp, -⟩ | ⟨-, hfreed, -⟩
  · exact absurd (show none = some p from hp) (by simp)
  · exact absurd hfreed List.not_mem_nil

section

variable {e a : ℕ}

/-- The entries from a position on are undone; the others stay. -/
theorem unwind_spec (n : ℕ) (hn : n ≤ 2 ^ e) (ring : FeTxRing) :
    (unwind (2 ^ e) n (a % 2 ^ e) ring).2.1 = (List.range n).flatMap (fun i =>
        (ring.txBuf ((a + i) % 2 ^ e)).recorded.map Mapping.pair) ∧
      (unwind (2 ^ e) n (a % 2 ^ e) ring).1.txRingSize = ring.txRingSize ∧
      (unwind (2 ^ e) n (a % 2 ^ e) ring).1.txFreeIdx = ring.txFreeIdx ∧
      (unwind (2 ^ e) n (a % 2 ^ e) ring).1.txNextIdx = ring.txNextIdx ∧
      ∀ x, (∀ i < n, x ≠ (a + i) % 2 ^ e) →
        (unwind (2 ^ e) n (a % 2 ^ e) ring).1.txBuf x = ring.txBuf x ∧
          (unwind (2 ^ e) n (a % 2 ^ e) ring).1.txDma x = ring.txDma x := by
  induction n generalizing a ring with
  | zero => exact ⟨rfl, rfl, rfl, rfl, fun _ _ => ⟨rfl, rfl⟩⟩
  | succ n ih =>
    have hshift (i : ℕ) : a + 1 + i = a + (i + 1) := by omega
    obtain ⟨hunmapped, hsize, hfree, hnext, hframe⟩ := @ih (a + 1) (by omega)
      { ring with
        txBuf := Function.update ring.txBuf (a % 2 ^ e) (feTxdUnmap (ring.txBuf (a % 2 ^ e))).1
        txDma := Function.update ring.txDma (a % 2 ^ e)
          { ring.txDma (a % 2 ^ e) with txd2 := txDmaDesp2Def } }
    rw [unwind, nextTxDespIdx, Ring.next_slot]
    refine ⟨?_, hsize, hfree, hnext, fun x hx => ?_⟩
    · rw [hunmapped, feTxdUnmap_recorded, List.range_succ_eq_map, List.flatMap_cons,
        List.flatMap_map, List.flatMap_def, List.flatMap_def, Nat.add_zero]
      refine congrArg (_ ++ List.flatten ·) (List.map_congr_left fun i hi => ?_)
      have hlt := List.mem_range.mp hi
      have hne : (a + 1 + i) % 2 ^ e ≠ a % 2 ^ e :=
        (Ring.slot_ne (by omega) (by omega)).symm
      show ((Function.update ring.txBuf (a % 2 ^ e) _ ((a + 1 + i) % 2 ^ e)).recorded).map _ = _
      rw [Function.update_of_ne hne, hshift]
    · have hne : x ≠ a % 2 ^ e := hx 0 (Nat.zero_lt_succ n)
      obtain ⟨hbuf, hdma⟩ := hframe x fun i hi => by
        rw [hshift]
        exact hx (i + 1) (Nat.succ_lt_succ hi)
      exact ⟨hbuf.trans (Function.update_of_ne hne _ _),
        hdma.trans (Function.update_of_ne hne _ _)⟩

end

section

variable {soc : Soc} {host : Host} {dev : Dev} {skb skb' : Skb} {e : ℕ}

theorem mapping_pair (ms : List Mapping) (n : ℕ) :
    (List.range n).flatMap (fun i => (twos ms i).map Mapping.pair) =
      (ms.take (2 * n)).map Mapping.pair := by
  rw [← List.map_flatMap, twos_flatMap]

/-- The mappings up to a failure take no more descriptors than the packet. -/
theorem made_taken (host : Host) {m : ℕ} (hm : m < (skb.frags.map pieces).sum) :
    ((skb.mappings host).take (m + 1)).length = m + 1 ∧ m / 2 + 1 ≤ skb.descs := by
  unfold Skb.descs
  rw [List.length_take, mappings_length]
  omega

/-- What the clean-up undoes in a ring that the loops left behind. -/
theorem unwind_laid {ring ring' : FeTxRing} {ms : List Mapping} {st : MapState} {txNum : ℕ}
    (hsize : ring.txRingSize = 2 ^ e) (hnext : ring.txNextIdx < 2 ^ e)
    (h : Laid (2 ^ e) ring.txNextIdx ring.txDma ring.txBuf ms false st) (hn : txNum ≤ 2 ^ e)
    (hfits : st.k / 2 + 1 ≤ txNum)
    (hfree : ∀ i < txNum, (ring.txBuf ((ring.txNextIdx + i) % 2 ^ e)).recorded = [])
    (hring : ring' = { ring with txDma := st.txDma, txBuf := st.txBuf }) :
    (unwind (2 ^ e) txNum ring.txNextIdx ring').2.1 = ms.map Mapping.pair ∧
      Untouched txNum ring (unwind (2 ^ e) txNum ring.txNextIdx ring').1 := by
  have hcount := h.count
  obtain ⟨hunmapped, hsize', hfree', hnext', hframe⟩ :=
    unwind_spec (a := ring.txNextIdx) txNum hn ring'
  rw [Nat.mod_eq_of_lt hnext] at hunmapped hsize' hfree' hnext' hframe
  subst hring
  refine ⟨?_, hsize', hfree', hnext', fun x hx => ?_⟩
  · have hentry : ∀ i ∈ List.range txNum,
        (st.txBuf ((ring.txNextIdx + i) % 2 ^ e)).recorded.map Mapping.pair =
          (twos ms i).map Mapping.pair := by
      intro i hi
      have hlt := List.mem_range.mp hi
      refine congrArg _ ?_
      rcases Nat.lt_or_ge (st.k / 2) i with hbeyond | hused
      · have hsame := (h.mapped.frame ((ring.txNextIdx + i) % 2 ^ e) fun j hj =>
          (Ring.slot_ne (by omega) (by omega)).symm).1
        have hnone : twos ms i = [] := by
          unfold twos
          rw [List.getElem?_eq_none (by omega), List.getElem?_eq_none (by omega)]
          rfl
        rw [hsame, hfree i hlt, hnone]
      · exact h.recorded i hused
    rw [hunmapped, List.flatMap_def, List.map_congr_left hentry, ← List.flatMap_def,
      mapping_pair, List.take_of_length_le (by omega)]
  · rw [hsize] at hx
    obtain ⟨hbuf, hdma⟩ := hframe x hx
    obtain ⟨hbuf', hdma'⟩ := h.mapped.frame x fun i hi => hx i (by omega)
    exact ⟨hbuf.trans hbuf', hdma.trans hdma'⟩

theorem feTxMapDma_undone {txNum : ℕ} (hsize : dev.txRing.txRingSize = 2 ^ e)
    (hnext : dev.txRing.txNextIdx < 2 ^ e) (hn : txNum ≤ 2 ^ e) (hdescs : skb.descs ≤ txNum)
    (hfree : ∀ i < txNum,
      (dev.txRing.txBuf ((dev.txRing.txNextIdx + i) % 2 ^ e)).recorded = [])
    (hfail : (feTxMapDma soc host dev skb txNum).queued = none) :
    (∃ ms, skb.Made host ms ∧
        (feTxMapDma soc host dev skb txNum).unmapped = ms.map Mapping.pair) ∧
      Untouched txNum dev.txRing (feTxMapDma soc host dev skb txNum).dev.txRing := by
  have hpos : 0 < txNum := Nat.lt_of_lt_of_le (Nat.zero_lt_succ _) hdescs
  rcases feTxMapDma_cases soc host dev skb txNum with
    ⟨hearly, hout⟩ | ⟨addr, stored, hcow, hmap, ⟨check, hcheck⟩, hloops⟩
  · rw [hout]
    refine ⟨⟨[], ?_, rfl⟩, rfl, rfl, rfl, fun x hx => ⟨?_, rfl⟩⟩
    · unfold Skb.Made
      by_cases hcow : (skb.gso && !host.cowOk) = true
      · rw [if_pos hcow]
      · rw [if_neg hcow]
        exact ⟨0, rfl, fun i hi => absurd hi (Nat.not_lt_zero i),
          fun _ => hearly.resolve_left hcow⟩
    · have hne := hx 0 hpos
      rw [Nat.add_zero, hsize, Nat.mod_eq_of_lt hnext] at hne
      exact Function.update_of_ne hne _ _
  · have hfrags : stored.frags = skb.frags := by rw [hcheck]
    have hhead : stored.headlen = skb.headlen := by rw [hcheck]; rfl
    have haddr : host.addr 0 = addr := by
      unfold Host.addr
      rw [hmap]
      rfl
    have houtcome := mapFrags_laid soc host dev.txRing stored addr hnext
    rw [hfrags, hhead, ← hsize] at houtcome
    rcases hloops with ⟨st, hrun, u, hu, hout⟩ | ⟨st, -, hout⟩
    · rw [hrun] at houtcome
      obtain ⟨m, hm, ⟨hcount, hlaid⟩, hmaps, hnone⟩ := houtcome
      rw [skbPieces_length] at hm
      rw [Nat.zero_add] at hnone
      have hms : [(⟨true, addr, skb.headlen⟩ : Mapping)] ++
          ((skbPieces host 0 skb.frags).flatten.take m).map Piece.mapping =
            (skb.mappings host).take (m + 1) := by
        rw [Skb.mappings, List.take_succ_cons, List.map_take, haddr]
        rfl
      rw [hms] at hcount hlaid
      obtain ⟨hlen, htaken⟩ := made_taken host hm
      have hst := hlaid (by omega)
      rw [hsize] at hu
      obtain ⟨hunmapped, hkept⟩ := unwind_laid hsize hnext hst hn (by omega) hfree rfl
      rw [← hu] at hunmapped hkept
      rw [hout]
      refine ⟨⟨_, ?_, hunmapped⟩, hkept⟩
      unfold Skb.Made
      rw [if_neg hcow]
      refine ⟨m + 1, rfl, fun i hi => ?_, fun _ => hnone⟩
      cases i with
      | zero =>
        rw [hmap]
        exact Option.some_ne_none addr
      | succ i =>
        have := hmaps i (Nat.lt_of_succ_lt_succ hi)
        rwa [Nat.zero_add] at this
    · rw [hout] at hfail
      exact absurd hfail (by simp)

end

end Iot7688.EthTx
