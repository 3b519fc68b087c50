import Iot7688.EthTxRing
import Iot7688.Lib.Register

/-!
What the descriptors of a packet say. The pieces of a packet are mapped in order and put
into the two slots of each descriptor in turn; a descriptor is read back by its lengths
and its last-segment bits. The length of the linear part is cut to its field, and behind an
empty last fragment a descriptor that is complete is written again, empty.
-/
namespace Iot7688.EthTx

open Lib

/-- A mapping, of the linear part or of a page. -/
structure Mapping where
  single : Bool
  addr : U32
  len : ℕ

/-- A piece of a fragment and the address it is mapped at. -/
structure Piece where
  offset : ℕ
  addr : U32
  len : ℕ

def Piece.pair (p : Piece) : U32 × ℕ := (p.addr, p.len)

def Piece.mapping (p : Piece) : Mapping := ⟨false, p.addr, p.len⟩

def Host.addr (host : Host) (i : ℕ) : U32 := (host.map i).getD 0

/-- The calls of skb_frag_dma_map for what is left of a fragment from an offset on. -/
def fragPieces (host : Host) (k offset fragSize : ℕ) : List Piece :=
  if 0 < fragSize then
    let fragMapSize := min fragSize txDmaBufLen
    ⟨offset, host.addr (k + 1), fragMapSize⟩ ::
      fragPieces host (k + 1) (offset + fragMapSize) (fragSize - fragMapSize)
  else []
termination_by fragSize
decreasing_by
  unfold txDmaBufLen
  omega

/-- The calls for all fragments, by fragment. -/
def skbPieces (host : Host) : ℕ → List ℕ → List (List Piece)
  | _, [] => []
  | k, frag :: frags => fragPieces host k 0 frag :: skbPieces host (k + pieces frag) frags

/-- Consecutive pieces from an offset to the end, none of them empty or longer than
TX_DMA_BUF_LEN. -/
def Covers : ℕ → ℕ → List Piece → Prop
  | offset, size, [] => offset = size
  | offset, size, p :: ps =>
      p.offset = offset ∧ 0 < p.len ∧ p.len ≤ txDmaBufLen ∧ Covers (offset + p.len) size ps

def FeTxDma.plen0 (txd : FeTxDma) : ℕ := (Register.field txd.txd2 16 (Register.ones 32 14)).toNat
def FeTxDma.plen1 (txd : FeTxDma) : ℕ := (Register.field txd.txd2 0 (Register.ones 32 14)).toNat
def FeTxDma.ls0 (txd : FeTxDma) : Bool := txd.txd2.getLsbD 30
def FeTxDma.ls1 (txd : FeTxDma) : Bool := txd.txd2.getLsbD 14

/-- The pairs of a descriptor, up to a last-segment bit. -/
def FeTxDma.pairs (txd : FeTxDma) : List (U32 × ℕ) :=
  (txd.txd1, txd.plen0) :: if txd.ls0 then [] else [(txd.txd3, txd.plen1)]

def FeTxDma.lastBits (txd : FeTxDma) : ℕ := txd.ls0.toNat + txd.ls1.toNat

/-- The descriptors from a slot up to the first one with a last-segment bit, among the
number given. -/
def descsFrom (size : ℕ) (txDma : ℕ → FeTxDma) : ℕ → ℕ → Option (List FeTxDma)
  | 0, _ => none
  | n + 1, x =>
      if (txDma x).ls0 || (txDma x).ls1 then some [txDma x]
      else (descsFrom size txDma n (nextTxDespIdx size x)).map (txDma x :: ·)

/-- The mappings an entry records. -/
def FeTxBuf.recorded (b : FeTxBuf) : List Mapping :=
  (if b.single0 then [⟨true, b.dmaAddr0, b.dmaLen0⟩]
    else if b.page0 then [⟨false, b.dmaAddr0, b.dmaLen0⟩] else []) ++
    if b.page1 then [⟨false, b.dmaAddr1, b.dmaLen1⟩] else []

/-- The mappings of a packet. -/
def Skb.mappings (host : Host) (skb : Skb) : List Mapping :=
  ⟨true, host.addr 0, skb.headlen⟩ :: (skbPieces host 0 skb.frags).flatten.map Piece.mapping

/-- The pairs are the linear part and the fragments in order, all in pieces. -/
def Conveys (host : Host) (skb : Skb) (pairs : List (U32 × ℕ)) : Prop :=
  ∃ head, Covers 0 skb.headlen head ∧
    (∀ p ∈ head, p.addr = host.addr 0 + BitVec.ofNat 32 p.offset) ∧
    List.Forall₂ (Covers 0) skb.frags (skbPieces host 0 skb.frags) ∧
    pairs = (head ++ (skbPieces host 0 skb.frags).flatten).map Piece.pair

/-- What is to hold of the ring behind fe_tx_map_dma, with the descriptors of the packet. -/
structure Described (host : Host) (skb : Skb) (ring ring' : FeTxRing) (stored : Skb)
    (ds : List FeTxDma) : Prop where
  read : descsFrom ring.txRingSize ring'.txDma ring.txRingSize ring.txNextIdx = some ds
  pairs : Conveys host skb (ds.flatMap FeTxDma.pairs)
  last : (ds.map FeTxDma.lastBits).sum = 1
  room : ds.length ≤ feCalTxdReq skb
  next : ring'.txNextIdx = (ring.txNextIdx + ds.length) % ring.txRingSize
  mappings : (List.range ds.length).flatMap (fun i =>
    (ring'.txBuf ((ring.txNextIdx + i) % ring.txRingSize)).recorded) = skb.mappings host
  dummies : ∀ i, i + 1 < ds.length →
    (ring'.txBuf ((ring.txNextIdx + i) % ring.txRingSize)).skb = .dummy
  stored : (ring'.txBuf ((ring.txNextIdx + (ds.length - 1)) % ring.txRingSize)).skb = .skb stored

/-- An odd number of pieces, and nothing in the last fragment. -/
def Skb.EmptyEnd (skb : Skb) : Prop :=
  (skb.frags.map pieces).sum % 2 = 1 ∧ skb.frags.getLast? = some 0

section

variable {host : Host}

theorem fragPieces_pos (host : Host) (k o : ℕ) {f : ℕ} (hf : 0 < f) :
    fragPieces host k o f = ⟨o, host.addr (k + 1), min f txDmaBufLen⟩ ::
      fragPieces host (k + 1) (o + min f txDmaBufLen) (f - min f txDmaBufLen) := by
  rw [fragPieces, if_pos hf]

theorem fragPieces_zero (host : Host) (k o : ℕ) : fragPieces host k o 0 = [] := by
  rw [fragPieces, if_neg (Nat.lt_irrefl 0)]

theorem min_pos {f : ℕ} (hf : 0 < f) : 0 < min f txDmaBufLen := by
  unfold txDmaBufLen
  omega

theorem fragPieces_length (k o f : ℕ) : (fragPieces host k o f).length = pieces f := by
  induction f using Nat.strong_induction_on generalizing k o with
  | h f ih =>
    by_cases hf : 0 < f
    · have hmin := min_pos hf
      rw [fragPieces_pos host k o hf, List.length_cons, ih _ (by omega), ← pieces_pos hf]
    · obtain rfl : f = 0 := by omega
      rw [fragPieces_zero]
      rfl

theorem fragPieces_covers (k o f : ℕ) : Covers o (o + f) (fragPieces host k o f) := by
  induction f using Nat.strong_induction_on generalizing k o with
  | h f ih =>
    by_cases hf : 0 < f
    · have hmin := min_pos hf
      rw [fragPieces_pos host k o hf]
      refine ⟨rfl, hmin, Nat.min_le_right _ _, ?_⟩
      have hrest := ih (f - min f txDmaBufLen) (by omega) (k + 1) (o + min f txDmaBufLen)
      rwa [show o + min f txDmaBufLen + (f - min f txDmaBufLen) = o + f by omega] at hrest
    · obtain rfl : f = 0 := by omega
      rw [fragPieces_zero]
      rfl

theorem skbPieces_covers (k : ℕ) (frags : List ℕ) :
    List.Forall₂ (Covers 0) frags (skbPieces host k frags) := by
  induction frags generalizing k with
  | nil => exact List.Forall₂.nil
  | cons f frags ih =>
    refine List.Forall₂.cons ?_ (ih _)
    have hcovers : Covers 0 (0 + f) (fragPieces host k 0 f) := fragPieces_covers k 0 f
    rwa [Nat.zero_add] at hcovers

theorem skbPieces_length (k : ℕ) (frags : List ℕ) :
    (skbPieces host k frags).flatten.length = (frags.map pieces).sum := by
  induction frags generalizing k with
  | nil => rfl
  | cons f frags ih =>
    rw [skbPieces, List.flatten_cons, List.length_append, fragPieces_length, ih, List.map_cons,
      List.sum_cons]

theorem Covers.sum {o n : ℕ} {ps : List Piece} (h : Covers o n ps) :
    o + (ps.map Piece.len).sum = n := by
  induction ps generalizing o with
  | nil => exact h
  | cons p ps ih =>
    have := ih h.2.2.2
    rw [List.map_cons, List.sum_cons]
    omega

theorem covers_mem {o n : ℕ} {ps : List Piece} (h : Covers o n ps) {p : Piece} (hp : p ∈ ps) :
    0 < p.len ∧ p.len ≤ txDmaBufLen := by
  induction ps generalizing o with
  | nil => exact absurd hp List.not_mem_nil
  | cons q ps ih =>
    rcases List.mem_cons.mp hp with rfl | hp
    · exact ⟨h.2.1, h.2.2.1⟩
    · exact ih h.2.2.2 hp

end

/-- Entries 2 i and 2 i + 1. -/
def twos {α : Type*} (l : List α) (i : ℕ) : List α := l[2 * i]?.toList ++ l[2 * i + 1]?.toList

theorem twos_flatMap {α : Type*} (l : List α) (n : ℕ) :
    (List.range n).flatMap (twos l) = l.take (2 * n) := by
  induction n with
  | zero => rfl
  | succ n ih =>
    rw [List.range_succ, List.flatMap_append, ih, List.flatMap_singleton, Nat.mul_succ,
      List.take_add_one, List.take_add_one, List.append_assoc]
    rfl

section

variable {ms : List Mapping} {m : Mapping} {i : ℕ} {txd : FeTxDma}

/-- The descriptor has mappings 2 i and 2 i + 1 in its slots. -/
def Holds (ms : List Mapping) (i : ℕ) (txd : FeTxDma) : Prop :=
  ∃ p q, ms[2 * i]? = some p ∧ ms[2 * i + 1]? = some q ∧ txd.txd1 = p.addr ∧ txd.txd3 = q.addr ∧
    txd.txd2 = txDmaPlen0 p.len ||| txDmaPlen1 q.len

/-- The descriptor has mapping 2 i in its first slot and nothing in the other one. -/
def HoldsOne (ms : List Mapping) (i : ℕ) (txd : FeTxDma) : Prop :=
  ∃ p, ms[2 * i]? = some p ∧ txd.txd1 = p.addr ∧ txd.txd2 = txDmaPlen0 p.len

theorem Holds.append (h : Holds ms i txd) : Holds (ms ++ [m]) i txd := by
  obtain ⟨p, q, hp, hq, hwords⟩ := h
  obtain ⟨hlt, -⟩ := List.getElem?_eq_some_iff.mp hp
  obtain ⟨hlt', -⟩ := List.getElem?_eq_some_iff.mp hq
  refine ⟨p, q, ?_, ?_, hwords⟩
  · rwa [List.getElem?_append_left hlt]
  · rwa [List.getElem?_append_left hlt']

/-- A second mapping goes into the other slot. -/
theorem HoldsOne.fill (h : HoldsOne ms i txd) (hlen : ms.length = 2 * i + 1) :
    Holds (ms ++ [m]) i
      { txd with txd3 := m.addr, txd2 := txd.txd2 ||| txDmaPlen1 m.len } := by
  obtain ⟨p, hp, h1, h2⟩ := h
  refine ⟨p, m, ?_, ?_, h1, rfl, ?_⟩
  · rwa [List.getElem?_append_left (by omega)]
  · rw [← hlen, List.getElem?_concat_length]
  · rw [← h2]

theorem twos_append (h : 2 * i + 1 < ms.length) : twos (ms ++ [m]) i = twos ms i := by
  unfold twos
  rw [List.getElem?_append_left h, List.getElem?_append_left (by omega)]

theorem twos_first (h : ms.length = 2 * i) : twos (ms ++ [m]) i = [m] := by
  have hnone : (ms ++ [m])[2 * i + 1]? = none := by
    refine List.getElem?_eq_none ?_
    rw [List.length_append, List.length_singleton]
    omega
  unfold twos
  rw [hnone, ← h, List.getElem?_concat_length]
  rfl

theorem twos_second (h : ms.length = 2 * i + 1) : twos (ms ++ [m]) i = twos ms i ++ [m] := by
  have hnone : ms[2 * i + 1]? = none := List.getElem?_eq_none (by omega)
  have hlast : (ms ++ [m])[2 * i + 1]? = some m := by rw [← h, List.getElem?_concat_length]
  unfold twos
  rw [hnone, hlast, List.getElem?_append_left (by omega), Option.toList_none, List.append_nil]
  rfl

end

/-- What the loops have laid out behind some mappings, in a ring that was `txDma` and
`txBuf`; `last` tells that a descriptor is held back for its last-segment bit. -/
structure Laid (size n : ℕ) (txDma : ℕ → FeTxDma) (txBuf : ℕ → FeTxBuf) (ms : List Mapping)
    (last : Bool) (st : MapState) : Prop where
  mapped : Mapped size n txDma txBuf st
  count : ms.length = st.k + 1
  full : ∀ i, 2 * i + 1 < ms.length → (last = true → i < st.k / 2) →
    Holds ms i (st.txDma ((n + i) % size))
  half : st.k % 2 = 0 → HoldsOne ms (st.k / 2) st.txd ∧ (st.txBuf st.j).page1 = false ∧
    (st.txBuf st.j).skb = .null
  whole : st.k % 2 = 1 → if last then Holds ms (st.k / 2) st.txd else st.txd = .zero
  recorded : ∀ i ≤ st.k / 2, (st.txBuf ((n + i) % size)).recorded = twos ms i

theorem recorded_page1 {b : FeTxBuf} (hb : b.page1 = false) (addr : U32) (len : ℕ) :
    FeTxBuf.recorded { b with skb := .dummy, page1 := true, dmaAddr1 := addr, dmaLen1 := len } =
      b.recorded ++ [⟨false, addr, len⟩] := by
  simp [FeTxBuf.recorded, hb]

section

variable {e n : ℕ} {txDma : ℕ → FeTxDma} {txBuf : ℕ → FeTxBuf} {ms : List Mapping}
  {st : MapState}

theorem mapPiece_laid (defTxd4 addr : U32) (len : ℕ) (last : Bool)
    (h : Laid (2 ^ e) n txDma txBuf ms false st) (hroom : ms.length < 2 * 2 ^ e) :
    Laid (2 ^ e) n txDma txBuf (ms ++ [⟨false, addr, len⟩]) last
      (mapPiece (2 ^ e) defTxd4 st addr len last) := by
  have hcount := h.count
  have hslot := h.mapped.at_j
  obtain ⟨hmapped, hk⟩ := mapPiece_mapped defTxd4 addr len last h.mapped (by omega)
  have hlen : (ms ++ [(⟨false, addr, len⟩ : Mapping)]).length = st.k + 2 := by
    rw [List.length_append, List.length_singleton, hcount]
  have hne : ∀ i, i < (st.k + 1) / 2 → (n + i) % 2 ^ e ≠ (n + (st.k + 1) / 2) % 2 ^ e :=
    fun i hi => Ring.slot_ne (by omega) (by omega)
  rcases Nat.mod_two_eq_zero_or_one st.k with heven | hodd
  · have hhalf : (st.k + 1) / 2 = st.k / 2 := by omega
    obtain ⟨hone, hpage, -⟩ := h.half heven
    have hfill := hone.fill (m := ⟨false, addr, len⟩) (by omega)
    have hold : ∀ i, i < st.k / 2 →
        Holds (ms ++ [⟨false, addr, len⟩]) i (st.txDma ((n + i) % 2 ^ e)) :=
      fun i hi => (h.full i (by omega) fun hl => absurd hl Bool.false_ne_true).append
    have hrec : ∀ i ≤ (st.k + 1) / 2, (Function.update st.txBuf st.j
        { st.txBuf st.j with
          skb := .dummy, page1 := true, dmaAddr1 := addr, dmaLen1 := len }
        ((n + i) % 2 ^ e)).recorded = twos (ms ++ [⟨false, addr, len⟩]) i := by
      intro i hi
      by_cases hlast : i = st.k / 2
      · rw [hlast, ← hslot, Function.update_self, recorded_page1 hpage, hslot,
          h.recorded _ (Nat.le_refl _), twos_second (by omega)]
      · have hother : (n + i) % 2 ^ e ≠ st.j := by
          rw [hslot, ← hhalf]
          exact hne i (by omega)
        rw [Function.update_of_ne hother, h.recorded i (by omega), twos_append (by omega)]
    unfold mapPiece at hmapped hk ⊢
    rw [if_neg (by omega)] at hmapped hk ⊢
    cases last with
    | true =>
      refine ⟨hmapped, hlen, fun i _ hi => hold i ?_, fun h0 => ?_, fun _ => ?_, hrec⟩
      · exact hhalf ▸ hi rfl
      · change (st.k + 1) % 2 = 0 at h0
        omega
      · show Holds _ ((st.k + 1) / 2) _
        rw [hhalf]
        exact hfill
    | false =>
      refine ⟨hmapped, hlen, fun i hi _ => ?_, fun h0 => ?_, fun _ => rfl, hrec⟩
      · rw [hlen] at hi
        show Holds _ i (Function.update st.txDma st.j _ ((n + i) % 2 ^ e))
        by_cases hlast : i = st.k / 2
        · rw [hlast, ← hslot, Function.update_self]
          exact hfill
        · have hother : (n + i) % 2 ^ e ≠ st.j := by
            rw [hslot, ← hhalf]
            exact hne i (by omega)
          rw [Function.update_of_ne hother]
          exact hold i (by omega)
      · change (st.k + 1) % 2 = 0 at h0
        omega
  · have hzero : st.txd = .zero := h.whole hodd
    unfold mapPiece at hmapped hk ⊢
    rw [if_pos hodd] at hmapped hk ⊢
    have hj : nextTxDespIdx (2 ^ e) st.j = (n + (st.k + 1) / 2) % 2 ^ e := hmapped.at_j
    refine ⟨hmapped, hlen, fun i hi _ => ?_, fun _ => ⟨?_, ?_, ?_⟩, fun h1 => ?_, fun i hi => ?_⟩
    · rw [hlen] at hi
      exact (h.full i (by omega) fun hl => absurd hl Bool.false_ne_true).append
    · refine ⟨⟨false, addr, len⟩, ?_, rfl, rfl⟩
      show (ms ++ _)[2 * ((st.k + 1) / 2)]? = _
      rw [show 2 * ((st.k + 1) / 2) = ms.length by omega, List.getElem?_concat_length]
    · show (Function.update st.txBuf _ _ (nextTxDespIdx (2 ^ e) st.j)).page1 = false
      rw [Function.update_self]
      rfl
    · show (Function.update st.txBuf _ _ (nextTxDespIdx (2 ^ e) st.j)).skb = .null
      rw [Function.update_self]
      rfl
    · change (st.k + 1) % 2 = 1 at h1
      omega
    · change i ≤ (st.k + 1) / 2 at hi
      show (Function.update st.txBuf _ _ ((n + i) % 2 ^ e)).recorded = _
      by_cases hlast : i = (st.k + 1) / 2
      · rw [hlast, hj, Function.update_self, twos_first (by omega)]
        rfl
      · rw [hj, Function.update_of_ne (hne i (by omega)), h.recorded i (by omega),
          twos_append (by omega)]

end

section

variable {size : ℕ} {defTxd4 : U32} {host : Host} {P : List Mapping → Bool → MapState → Prop}

/-- The outcome of a loop over some pieces: all of them mapped, or those before the first
mapping that fails. -/
def Outcome (host : Host) (P : List Mapping → Bool → MapState → Prop) (ms : List Mapping)
    (ps : List Piece) (last : Bool) (k : ℕ) : Except MapState MapState → Prop
  | .ok st => P (ms ++ ps.map Piece.mapping) last st ∧ st.k = k + ps.length ∧
      ∀ i < ps.length, host.map (k + i + 1) ≠ none
  | .error st => ∃ m < ps.length, P (ms ++ (ps.take m).map Piece.mapping) false st ∧
      (∀ i < m, host.map (k + i + 1) ≠ none) ∧ host.map (k + m + 1) = none

/-- Pieces before a loop whose outcome is known. -/
theorem Outcome.append {ms : List Mapping} (ps : List Piece) {ps' : List Piece} {last : Bool}
    {k : ℕ} (hps : ∀ i < ps.length, host.map (k + i + 1) ≠ none) {r : Except MapState MapState}
    (h : Outcome host P (ms ++ ps.map Piece.mapping) ps' last (k + ps.length) r) :
    Outcome host P ms (ps ++ ps') last k r := by
  have hall (n : ℕ) (hmaps : ∀ i < n, host.map (k + ps.length + i + 1) ≠ none) (i : ℕ)
      (hi : i < ps.length + n) : host.map (k + i + 1) ≠ none := by
    rcases Nat.lt_or_ge i ps.length with hlt | hge
    · exact hps i hlt
    · have := hmaps (i - ps.length) (by omega)
      rwa [show k + ps.length + (i - ps.length) + 1 = k + i + 1 by omega] at this
  cases r with
  | ok st =>
    obtain ⟨hP, hk, hmaps⟩ := h
    refine ⟨?_, ?_, fun i hi => hall _ hmaps i ?_⟩
    · rwa [List.map_append, ← List.append_assoc]
    · rw [hk, List.length_append, Nat.add_assoc]
    · rwa [List.length_append] at hi
  | error st =>
    obtain ⟨m, hm, hP, hmaps, hnone⟩ := h
    refine ⟨ps.length + m, ?_, ?_, hall m hmaps, ?_⟩
    · rw [List.length_append]
      exact Nat.add_lt_add_left hm _
    · rwa [List.take_length_add_append, List.map_append, ← List.append_assoc]
    · rwa [← Nat.add_assoc]

/-- A piece that cannot be mapped ends the loop. -/
theorem Outcome.stop {ms : List Mapping} {p : Piece} {ps : List Piece} {last : Bool}
    {st : MapState} (h : P ms false st) (hnone : host.map (st.k + 1) = none) :
    Outcome host P ms (p :: ps) last st.k (.error st) := by
  refine ⟨0, Nat.zero_lt_succ _, ?_, fun i hi => absurd hi (Nat.not_lt_zero i), hnone⟩
  rwa [List.take_zero, List.map_nil, List.append_nil]

variable (hk : ∀ ms last st, P ms last st → ms.length = st.k + 1)
  (hstep : ∀ ms st addr len last, P ms false st →
    P (ms ++ [⟨false, addr, len⟩]) last (mapPiece size defTxd4 st addr len last))

include hk hstep

omit hk hstep in
theorem mapFrag_zero (lastFrag : Bool) (st : MapState) :
    mapFrag size defTxd4 host lastFrag 0 st = .ok st := by
  rw [mapFrag, if_neg (Nat.lt_irrefl 0)]

omit hk hstep in
theorem mapFrag_none (lastFrag : Bool) {f : ℕ} (hf : 0 < f) {st : MapState}
    (hmap : host.map (st.k + 1) = none) :
    mapFrag size defTxd4 host lastFrag f st = .error st := by
  rw [mapFrag, if_pos hf]
  simp only [hmap]

omit hk hstep in
theorem mapFrag_some (lastFrag : Bool) {f : ℕ} (hf : 0 < f) {st : MapState} {addr : U32}
    (hmap : host.map (st.k + 1) = some addr) :
    mapFrag size defTxd4 host lastFrag f st =
      mapFrag size defTxd4 host lastFrag (f - min f txDmaBufLen)
        (mapPiece size defTxd4 st addr (min f txDmaBufLen)
          (lastFrag && min f txDmaBufLen == f)) := by
  rw [mapFrag, if_pos hf]
  simp only [hmap]

/-- What every piece keeps is kept by the loop over a fragment. -/
theorem mapFrag_rule (lastFrag : Bool) (o f : ℕ) {ms : List Mapping} {st : MapState}
    (h : P ms false st) :
    Outcome host P ms (fragPieces host st.k o f) (lastFrag && decide (0 < f)) st.k
      (mapFrag size defTxd4 host lastFrag f st) := by
  induction f using Nat.strong_induction_on generalizing o ms st with
  | h f ih =>
    by_cases hf : 0 < f
    · have hmin := min_pos hf
      rw [fragPieces_pos host st.k o hf]
      cases hmap : host.map (st.k + 1) with
      | none =>
        rw [mapFrag_none lastFrag hf hmap]
        exact Outcome.stop h hmap
      | some addr =>
        have haddr : host.addr (st.k + 1) = addr := by
          unfold Host.addr
          rw [hmap]
          rfl
        have hone := hstep ms st addr (min f txDmaBufLen) (lastFrag && min f txDmaBufLen == f) h
        have hcount := hk _ _ _ h
        have hcount' := hk _ _ _ hone
        rw [List.length_append, List.length_singleton] at hcount'
        have hk1 : (mapPiece size defTxd4 st addr (min f txDmaBufLen)
            (lastFrag && min f txDmaBufLen == f)).k = st.k + 1 := by omega
        rw [haddr, mapFrag_some lastFrag hf hmap]
        refine Outcome.append [⟨o, addr, min f txDmaBufLen⟩] ?_ ?_
        · intro i hi
          obtain rfl : i = 0 := Nat.lt_one_iff.mp hi
          rw [Nat.add_zero, hmap]
          exact Option.some_ne_none addr
        · rw [List.length_singleton, ← hk1]
          by_cases hall : min f txDmaBufLen = f
          · have hflag : (lastFrag && f == f) = (lastFrag && decide (0 < f)) := by simp [hf]
            rw [hall, Nat.sub_self, fragPieces_zero, mapFrag_zero]
            rw [hall, hflag] at hone
            refine ⟨?_, rfl, fun i hi => absurd hi (Nat.not_lt_zero i)⟩
            rw [hflag, List.map_nil, List.append_nil]
            exact hone
          · have hflag : (lastFrag && min f txDmaBufLen == f) = false := by simp [hall]
            have hleft : 0 < f - min f txDmaBufLen := by omega
            rw [hflag] at hone ⊢
            have hrest := ih (f - min f txDmaBufLen) (by omega) (o + min f txDmaBufLen) hone
            rw [decide_eq_true hleft] at hrest
            rw [decide_eq_true hf]
            exact hrest
    · obtain rfl : f = 0 := by omega
      rw [mapFrag_zero, fragPieces_zero]
      refine ⟨?_, rfl, fun i hi => absurd hi (Nat.not_lt_zero i)⟩
      rw [List.map_nil, List.append_nil, decide_eq_false hf, Bool.and_false]
      exact h

/-- The last piece of the last fragment was held back. -/
def endFlag (frags : List ℕ) : Bool := decide (0 < frags.getLast?.getD 0)

omit hk hstep in
theorem endFlag_cons (f g : ℕ) (frags : List ℕ) :
    endFlag (f :: g :: frags) = endFlag (g :: frags) := by
  unfold endFlag
  rw [List.getLast?_cons_cons]

/-- What every piece keeps is kept by the loops over the fragments. -/
theorem mapFrags_rule (frags : List ℕ) {ms : List Mapping} {st : MapState} (h : P ms false st) :
    Outcome host P ms (skbPieces host st.k frags).flatten (endFlag frags) st.k
      (mapFrags size defTxd4 host frags st) := by
  induction frags generalizing ms st with
  | nil =>
    refine ⟨?_, rfl, fun i hi => absurd hi (Nat.not_lt_zero i)⟩
    rwa [skbPieces, List.flatten_nil, List.map_nil, List.append_nil]
  | cons f frags ih =>
    have hfrag : Outcome host P ms (fragPieces host st.k 0 f) _ st.k _ :=
      mapFrag_rule hk hstep frags.isEmpty 0 f h
    rw [mapFrags, skbPieces, List.flatten_cons]
    cases hr : mapFrag size defTxd4 host frags.isEmpty f st with
    | error st' =>
      rw [hr] at hfrag
      obtain ⟨m, hm, hP, hmaps, hnone⟩ := hfrag
      refine ⟨m, ?_, ?_, hmaps, hnone⟩
      · rw [List.length_append]
        exact Nat.lt_add_right _ hm
      · rwa [List.take_append_of_le_length (Nat.le_of_lt hm)]
    | ok st' =>
      rw [hr] at hfrag
      obtain ⟨hP, hk', hmaps⟩ := hfrag
      refine Outcome.append _ hmaps ?_
      rw [← hk', show st.k + pieces f = st'.k by rw [hk', fragPieces_length]]
      cases frags with
      | nil =>
        refine ⟨?_, rfl, fun i hi => absurd hi (Nat.not_lt_zero i)⟩
        rw [skbPieces, List.flatten_nil, List.map_nil, List.append_nil]
        exact hP
      | cons g frags =>
        rw [endFlag_cons]
        exact ih hP

end

section

variable {txd : FeTxDma} {a b : ℕ} {l : U32}

theorem plen0_put (a : ℕ) :
    txDmaPlen0 a = Register.put 0#32 16 (Register.ones 32 14) (BitVec.ofNat 32 a) :=
  Register.put_zero.symm

theorem plen1_put (b : ℕ) :
    txDmaPlen1 b = Register.put 0#32 0 (Register.ones 32 14) (BitVec.ofNat 32 b) := by
  rw [Register.put_zero, BitVec.shiftLeft_zero]
  rfl

theorem toNat_cut (n : ℕ) : (BitVec.ofNat 32 n &&& Register.ones 32 14).toNat = n % 2 ^ 14 := by
  rw [BitVec.toNat_and, BitVec.toNat_ofNat,
    show (Register.ones 32 14).toNat = 2 ^ 14 - 1 from rfl, Nat.and_two_pow_sub_one_eq_mod,
    Nat.mod_mod_of_dvd _ (by decide)]

/-- Both lengths and the last-segment bits read back. -/
theorem words_read (h : txd.txd2 = txDmaPlen0 a ||| txDmaPlen1 b ||| l)
    (hl : l = 0 ∨ l = txDmaLs0 ∨ l = txDmaLs1) :
    txd.plen0 = a % 2 ^ 14 ∧ txd.plen1 = b % 2 ^ 14 ∧ txd.ls0 = l.getLsbD 30 ∧
      txd.ls1 = l.getLsbD 14 := by
  have hlow : Register.field l 0 (Register.ones 32 14) = 0 := by
    rcases hl with rfl | rfl | rfl
    · decide
    · decide
    · decide
  have hhigh : Register.field l 16 (Register.ones 32 14) = 0 := by
    rcases hl with rfl | rfl | rfl
    · decide
    · decide
    · decide
  have hzero (s : ℕ) : Register.field 0#32 s (Register.ones 32 14) = 0 := by
    unfold Register.field
    rw [BitVec.zero_ushiftRight, BitVec.zero_and]
    rfl
  rw [plen0_put, plen1_put] at h
  refine ⟨?_, ?_, ?_, ?_⟩
  · rw [FeTxDma.plen0, h, Register.field_or, Register.field_or,
      Register.field_put_here (by decide), Register.field_put_apart (by decide), hzero, hhigh,
      ← toNat_cut]
    exact congrArg BitVec.toNat (by simp)
  · rw [FeTxDma.plen1, h, Register.field_or, Register.field_or,
      Register.field_put_here (by decide), Register.field_put_apart (by decide), hzero, hlow,
      ← toNat_cut]
    exact congrArg BitVec.toNat (by simp)
  · rw [FeTxDma.ls0, h, BitVec.getLsbD_or, BitVec.getLsbD_or,
      Register.getLsbD_put_of_not (by decide), Register.getLsbD_put_of_not (by decide),
      BitVec.getLsbD_zero, Bool.or_false, Bool.false_or]
  · rw [FeTxDma.ls1, h, BitVec.getLsbD_or, BitVec.getLsbD_or,
      Register.getLsbD_put_of_not (by decide), Register.getLsbD_put_of_not (by decide),
      BitVec.getLsbD_zero, Bool.or_false, Bool.false_or]

/-- A pair as the descriptor has room for it. -/
def Mapping.cut (m : Mapping) : U32 × ℕ := (m.addr, m.len % 2 ^ 14)

variable {ms : List Mapping} {i : ℕ}

theorem Holds.read (h : Holds ms i txd) : txd.pairs = (twos ms i).map Mapping.cut ∧
    txd.ls0 = false ∧ txd.ls1 = false := by
  obtain ⟨p, q, hp, hq, h1, h3, h2⟩ := h
  have hwords : txd.txd2 = txDmaPlen0 p.len ||| txDmaPlen1 q.len ||| 0 := by
    rw [h2]
    exact BitVec.or_zero.symm
  obtain ⟨hplen0, hplen1, hls0, hls1⟩ := words_read hwords (Or.inl rfl)
  refine ⟨?_, hls0, hls1⟩
  rw [FeTxDma.pairs, hls0, hplen0, hplen1, h1, h3, twos, hp, hq]
  rfl

theorem Holds.read_last (h : Holds ms i txd) {d : FeTxDma}
    (hd : d = { txd with txd2 := txd.txd2 ||| txDmaLs1 }) :
    d.pairs = (twos ms i).map Mapping.cut ∧ d.ls0 = false ∧ d.ls1 = true := by
  obtain ⟨p, q, hp, hq, h1, h3, h2⟩ := h
  have hwords : d.txd2 = txDmaPlen0 p.len ||| txDmaPlen1 q.len ||| txDmaLs1 := by
    rw [hd, ← h2]
  obtain ⟨hplen0, hplen1, hls0, hls1⟩ := words_read hwords (Or.inr (Or.inr rfl))
  refine ⟨?_, hls0, hls1⟩
  rw [FeTxDma.pairs, hls0, hplen0, hplen1, twos, hp, hq, hd]
  show [(txd.txd1, _), (txd.txd3, _)] = _
  rw [h1, h3]
  rfl

theorem HoldsOne.read_last (h : HoldsOne ms i txd) (hlen : ms.length = 2 * i + 1) {d : FeTxDma}
    (hd : d = { txd with txd2 := txd.txd2 ||| txDmaLs0 }) :
    d.pairs = (twos ms i).map Mapping.cut ∧ d.ls0 = true ∧ d.ls1 = false := by
  obtain ⟨p, hp, h1, h2⟩ := h
  have hnone : ms[2 * i + 1]? = none := List.getElem?_eq_none (Nat.le_of_eq hlen)
  have hwords : d.txd2 = txDmaPlen0 p.len ||| txDmaPlen1 0 ||| txDmaLs0 := by
    rw [hd, ← h2]
    exact congrArg (· ||| txDmaLs0) BitVec.or_zero.symm
  obtain ⟨hplen0, -, hls0, hls1⟩ := words_read hwords (Or.inr (Or.inl rfl))
  refine ⟨?_, hls0, hls1⟩
  rw [FeTxDma.pairs, hls0, hplen0, twos, hp, hnone, hd]
  show [(txd.txd1, _)] = _
  rw [h1]
  rfl

end

section

variable {e n : ℕ}

theorem descsFrom_eq {t fuel : ℕ} {txDma : ℕ → FeTxDma}
    (hopen : ∀ i < t, (txDma ((n + i) % 2 ^ e)).ls0 = false ∧ (txDma ((n + i) % 2 ^ e)).ls1 = false)
    (hlast : ((txDma ((n + t) % 2 ^ e)).ls0 || (txDma ((n + t) % 2 ^ e)).ls1) = true)
    (ht : t < fuel) :
    descsFrom (2 ^ e) txDma fuel (n % 2 ^ e) =
      some ((List.range (t + 1)).map fun i => txDma ((n + i) % 2 ^ e)) := by
  induction t generalizing n fuel with
  | zero =>
    obtain ⟨m, rfl⟩ := Nat.exists_eq_add_of_lt ht
    rw [Nat.add_zero] at hlast
    rw [Nat.zero_add, descsFrom, if_pos hlast]
    rfl
  | succ t ih =>
    obtain ⟨m, rfl⟩ := Nat.exists_eq_add_of_lt ht
    obtain ⟨h0, h1⟩ := hopen 0 (Nat.zero_lt_succ t)
    rw [Nat.add_zero] at h0 h1
    have hgo : ¬((txDma (n % 2 ^ e)).ls0 || (txDma (n % 2 ^ e)).ls1) = true := by
      rw [h0, h1]
      exact Bool.false_ne_true
    have hshift (i : ℕ) : n + 1 + i = n + (i + 1) := by omega
    have hopen' : ∀ i < t, (txDma ((n + 1 + i) % 2 ^ e)).ls0 = false ∧
        (txDma ((n + 1 + i) % 2 ^ e)).ls1 = false := by
      intro i hi
      rw [hshift]
      exact hopen (i + 1) (Nat.succ_lt_succ hi)
    have hrest := ih hopen' (by rwa [hshift]) (show t < t + 1 + m by omega)
    have hrange : (List.range (t + 1 + 1)).map (fun i => txDma ((n + i) % 2 ^ e)) =
        txDma (n % 2 ^ e) :: (List.range (t + 1)).map fun i => txDma ((n + 1 + i) % 2 ^ e) := by
      rw [List.range_succ_eq_map, List.map_cons, List.map_map]
      refine congrArg (_ :: ·) (List.map_congr_left fun i _ => ?_)
      rw [hshift]
      rfl
    rw [descsFrom, if_neg hgo, nextTxDespIdx, Ring.next_slot, hrest, Option.map_some, hrange]

variable {ring : FeTxRing} {ms : List Mapping} {last : Bool} {st : MapState}

/-- The descriptors of the packet once the last segment is set. -/
def laidDescs (e n : ℕ) (ring : FeTxRing) (stored : Skb) (st : MapState) : List FeTxDma :=
  (List.range (st.k / 2 + 1)).map fun i => (setLast ring stored st).txDma ((n + i) % 2 ^ e)

/-- The hardware reads them all if the last one carries the last-segment bit, and of those
before it it reads the pairs that were mapped. -/
theorem laidDescs_read (stored : Skb) (hsize : ring.txRingSize = 2 ^ e)
    (hnext : ring.txNextIdx = n % 2 ^ e)
    (h : Laid (2 ^ e) n ring.txDma ring.txBuf ms last st) (hroom : ms.length ≤ 2 * 2 ^ e)
    {d : FeTxDma} (hd : d = { st.txd with
      txd2 := st.txd.txd2 ||| (if st.k % 2 = 1 then txDmaLs1 else txDmaLs0) })
    (hbit : d.lastBits = 1) :
    descsFrom ring.txRingSize (setLast ring stored st).txDma ring.txRingSize ring.txNextIdx =
        some (laidDescs e n ring stored st) ∧
      (laidDescs e n ring stored st).flatMap FeTxDma.pairs =
        (ms.take (2 * (st.k / 2))).map Mapping.cut ++ d.pairs ∧
      ((laidDescs e n ring stored st).map FeTxDma.lastBits).sum = 1 := by
  have hcount := h.count
  have hhere : (setLast ring stored st).txDma ((n + st.k / 2) % 2 ^ e) = d := by
    rw [← h.mapped.at_j, hd]
    exact Function.update_self _ _ _
  have hbefore : ∀ i < st.k / 2,
      Holds ms i ((setLast ring stored st).txDma ((n + i) % 2 ^ e)) := by
    intro i hi
    have hne : (n + i) % 2 ^ e ≠ st.j := by
      rw [h.mapped.at_j]
      exact Ring.slot_ne (by omega) (by omega)
    have hsame : (setLast ring stored st).txDma ((n + i) % 2 ^ e) =
        st.txDma ((n + i) % 2 ^ e) := Function.update_of_ne hne _ _
    rw [hsame]
    exact h.full i (by omega) fun _ => hi
  refine ⟨?_, ?_, ?_⟩
  · rw [hsize, hnext]
    refine descsFrom_eq (fun i hi => (hbefore i hi).read.2) ?_ (by omega)
    rw [hhere]
    unfold FeTxDma.lastBits at hbit
    cases h0 : d.ls0 with
    | true => rfl
    | false =>
      cases h1 : d.ls1 with
      | true => rfl
      | false =>
        rw [h0, h1] at hbit
        exact absurd hbit (by decide)
  · have hpairs : (List.range (st.k / 2)).flatMap
        (fun i => ((setLast ring stored st).txDma ((n + i) % 2 ^ e)).pairs) =
          (List.range (st.k / 2)).flatMap fun i => (twos ms i).map Mapping.cut := by
      rw [List.flatMap_def, List.flatMap_def]
      refine congrArg List.flatten (List.map_congr_left fun i hi => ?_)
      exact (hbefore i (List.mem_range.mp hi)).read.1
    rw [laidDescs, List.flatMap_map, List.range_succ, List.flatMap_append, List.flatMap_singleton,
      hhere, hpairs, ← List.map_flatMap, twos_flatMap]
  · have hzero : ((List.range (st.k / 2)).map
        fun i => ((setLast ring stored st).txDma ((n + i) % 2 ^ e)).lastBits).sum = 0 := by
      refine List.sum_eq_zero fun x hx => ?_
      obtain ⟨i, hi, rfl⟩ := List.mem_map.mp hx
      obtain ⟨-, h0, h1⟩ := (hbefore i (List.mem_range.mp hi)).read
      rw [FeTxDma.lastBits, h0, h1]
      rfl
    rw [laidDescs, List.map_map, List.range_succ, List.map_append, List.sum_append]
    refine (congrArg₂ (· + ·) hzero ?_).trans (Nat.zero_add 1)
    rw [List.map_singleton, List.sum_singleton, Function.comp_apply, hhere, hbit]

/-- All pairs are read, unless a complete descriptor was not held back. -/
theorem laidDescs_pairs (stored : Skb) (hsize : ring.txRingSize = 2 ^ e)
    (hnext : ring.txNextIdx = n % 2 ^ e)
    (h : Laid (2 ^ e) n ring.txDma ring.txBuf ms last st) (hroom : ms.length ≤ 2 * 2 ^ e) :
    descsFrom ring.txRingSize (setLast ring stored st).txDma ring.txRingSize ring.txNextIdx =
        some (laidDescs e n ring stored st) ∧
      (laidDescs e n ring stored st).flatMap FeTxDma.pairs =
        (if st.k % 2 = 1 ∧ last = false then
          (ms.take (2 * (st.k / 2))).map Mapping.cut ++ [(0, 0), (0, 0)]
        else ms.map Mapping.cut) ∧
      ((laidDescs e n ring stored st).map FeTxDma.lastBits).sum = 1 := by
  have hcount := h.count
  have hall : (ms.take (2 * (st.k / 2))).map Mapping.cut ++
      (twos ms (st.k / 2)).map Mapping.cut = ms.map Mapping.cut := by
    rw [← List.map_append, ← twos_flatMap, ← List.flatMap_singleton (twos ms) (st.k / 2),
      ← List.flatMap_append, ← List.range_succ, twos_flatMap, List.take_of_length_le (by omega)]
  rcases Nat.mod_two_eq_zero_or_one st.k with heven | hodd
  · obtain ⟨hpairs, h0, h1⟩ := (h.half heven).1.read_last (by omega) rfl
    have hbit : FeTxDma.lastBits { st.txd with txd2 := st.txd.txd2 ||| txDmaLs0 } = 1 := by
      rw [FeTxDma.lastBits, h0, h1]
      rfl
    have hread := laidDescs_read stored hsize hnext h hroom rfl
      (by rw [if_neg (by omega)]; exact hbit)
    rw [if_neg (show ¬st.k % 2 = 1 by omega), hpairs, hall] at hread
    rwa [if_neg (by omega)]
  · have hwhole := h.whole hodd
    cases last with
    | true =>
      obtain ⟨hpairs, h0, h1⟩ := Holds.read_last hwhole rfl
      have hbit : FeTxDma.lastBits { st.txd with txd2 := st.txd.txd2 ||| txDmaLs1 } = 1 := by
        rw [FeTxDma.lastBits, h0, h1]
        rfl
      have hread := laidDescs_read stored hsize hnext h hroom rfl
        (by rw [if_pos hodd]; exact hbit)
      rw [if_pos hodd, hpairs, hall] at hread
      rwa [if_neg (by simp)]
    | false =>
      have hzero : st.txd = .zero := hwhole
      have hbit : FeTxDma.lastBits { FeTxDma.zero with txd2 := 0 ||| txDmaLs1 } = 1 := by decide
      have hread := laidDescs_read stored hsize hnext h hroom rfl
        (by rw [if_pos hodd, hzero]; exact hbit)
      rw [if_pos hodd, hzero] at hread
      rw [if_pos ⟨hodd, rfl⟩]
      exact hread

end

section

variable {host : Host} {skb : Skb} {pairs : List (U32 × ℕ)}

theorem skbPieces_sum (k : ℕ) (frags : List ℕ) :
    ((skbPieces host k frags).flatten.map Piece.len).sum = frags.sum := by
  induction frags generalizing k with
  | nil => rfl
  | cons f frags ih =>
    have hcovers : Covers 0 (0 + f) (fragPieces host k 0 f) := fragPieces_covers k 0 f
    have hfrag := hcovers.sum
    rw [skbPieces, List.flatten_cons, List.map_append, List.sum_append, ih, List.sum_cons]
    omega

theorem skbPieces_mem {k : ℕ} {frags : List ℕ} {p : Piece}
    (hp : p ∈ (skbPieces host k frags).flatten) : 0 < p.len ∧ p.len ≤ txDmaBufLen := by
  induction frags generalizing k with
  | nil => exact absurd hp List.not_mem_nil
  | cons f frags ih =>
    rw [skbPieces, List.flatten_cons] at hp
    rcases List.mem_append.mp hp with hp | hp
    · exact covers_mem (fragPieces_covers k 0 f) hp
    · exact ih hp

theorem Conveys.sum (h : Conveys host skb pairs) :
    (pairs.map Prod.snd).sum = skb.headlen + skb.frags.sum := by
  obtain ⟨head, hhead, -, -, rfl⟩ := h
  have hsum := hhead.sum
  have hsnd : Prod.snd ∘ Piece.pair = Piece.len := rfl
  rw [List.map_map, hsnd, List.map_append, List.sum_append, skbPieces_sum]
  omega

theorem Conveys.length (h : Conveys host skb pairs) (hlen : 1 ≤ skb.headlen) :
    (skb.frags.map pieces).sum + 1 ≤ pairs.length := by
  obtain ⟨head, hhead, -, -, rfl⟩ := h
  have hne : head ≠ [] := by
    rintro rfl
    exact absurd hhead (Nat.ne_of_lt hlen)
  have hpos := List.length_pos_of_ne_nil hne
  rw [List.length_map, List.length_append, skbPieces_length]
  omega

theorem pairs_length (ds : List FeTxDma) : (ds.flatMap FeTxDma.pairs).length ≤ 2 * ds.length := by
  induction ds with
  | nil => exact Nat.le_refl _
  | cons d ds ih =>
    have hd : d.pairs.length ≤ 2 := by
      unfold FeTxDma.pairs
      cases d.ls0 with
      | true => exact Nat.le_succ 1
      | false => exact Nat.le_refl 2
    rw [List.flatMap_cons, List.length_append, List.length_cons]
    omega

theorem mappings_length (host : Host) (skb : Skb) :
    (skb.mappings host).length = (skb.frags.map pieces).sum + 1 := by
  rw [Skb.mappings, List.length_cons, List.length_map, skbPieces_length]

/-- Only the linear part can be too long for its field. -/
theorem mappings_cut (host : Host) (skb : Skb) : (skb.mappings host).map Mapping.cut =
    (host.addr 0, skb.headlen % 2 ^ 14) ::
      (skbPieces host 0 skb.frags).flatten.map Piece.pair := by
  rw [Skb.mappings, List.map_cons, List.map_map]
  refine congrArg (_ :: ·) (List.map_congr_left fun p hp => ?_)
  obtain ⟨-, hlen⟩ := skbPieces_mem hp
  exact congrArg (p.addr, ·) (Nat.mod_eq_of_lt (Nat.lt_succ_of_le hlen))

theorem cut_sum (host : Host) (skb : Skb) :
    (((skb.mappings host).map Mapping.cut).map Prod.snd).sum =
      skb.headlen % 2 ^ 14 + skb.frags.sum := by
  have hsnd : Prod.snd ∘ Piece.pair = Piece.len := rfl
  rw [mappings_cut, List.map_cons, List.sum_cons, List.map_map, hsnd, skbPieces_sum]

/-- A linear part that fits into the field is conveyed whole. -/
theorem conveys_of_fits (hlen : 1 ≤ skb.headlen) (hfits : skb.headlen ≤ txDmaBufLen) :
    Conveys host skb ((skb.mappings host).map Mapping.cut) := by
  refine ⟨[⟨0, host.addr 0, skb.headlen⟩], ⟨rfl, hlen, hfits, Nat.zero_add _⟩, ?_,
    skbPieces_covers 0 skb.frags, ?_⟩
  · intro p hp
    obtain rfl := List.mem_singleton.mp hp
    exact (BitVec.add_zero _).symm
  · have hlt : skb.headlen < 2 ^ 14 := Nat.lt_succ_of_le hfits
    rw [mappings_cut, Nat.mod_eq_of_lt hlt]
    rfl

/-- Without its last two pairs the packet is not conveyed. -/
theorem not_conveys_of_lost {k : ℕ} (hk : (skb.frags.map pieces).sum = k) (hpos : 1 ≤ k) :
    ¬Conveys host skb
      (((skb.mappings host).take (k - 1)).map Mapping.cut ++ [(0, 0), (0, 0)]) := by
  intro h
  have hsum := h.sum
  have hlen := mappings_length host skb
  have hcut := cut_sum host skb
  have hsplit := List.take_append_drop (k - 1) (skb.mappings host)
  have hall : (((skb.mappings host).map Mapping.cut).map Prod.snd).sum =
      ((((skb.mappings host).take (k - 1)).map Mapping.cut).map Prod.snd).sum +
        ((((skb.mappings host).drop (k - 1)).map Mapping.cut).map Prod.snd).sum := by
    conv_lhs => rw [← hsplit]
    rw [List.map_append, List.map_append, List.sum_append]
  rw [List.map_append, List.sum_append] at hsum
  have hzero : ([((0 : U32), 0), (0, 0)].map Prod.snd).sum = 0 := rfl
  have hmod := Nat.mod_le skb.headlen (2 ^ 14)
  have hrest : ((((skb.mappings host).drop (k - 1)).map Mapping.cut).map Prod.snd).sum = 0 := by
    omega
  have hlast : k < (skb.mappings host).length := by omega
  have hmem : (skb.mappings host)[k] ∈ (skb.mappings host).drop (k - 1) := by
    refine List.mem_of_getElem? (i := 1) ?_
    rw [List.getElem?_drop, Nat.sub_add_cancel hpos]
    exact List.getElem?_eq_getElem hlast
  have hnil := List.sum_eq_zero_iff.mp hrest _
    (List.mem_map_of_mem (f := Prod.snd) (List.mem_map_of_mem (f := Mapping.cut) hmem))
  obtain ⟨j, rfl⟩ := Nat.exists_eq_add_of_le' hpos
  have hpiece : j < (skbPieces host 0 skb.frags).flatten.length := by
    rw [skbPieces_length]
    omega
  have hget : (skb.mappings host)[j + 1] =
      ((skbPieces host 0 skb.frags).flatten[j]).mapping := by
    simp only [Skb.mappings, List.getElem_cons_succ, List.getElem_map]
  obtain ⟨hlow, hhigh⟩ := skbPieces_mem (List.getElem_mem hpiece)
  rw [hget] at hnil
  change ((skbPieces host 0 skb.frags).flatten[j]).len % 2 ^ 14 = 0 at hnil
  unfold txDmaBufLen at hhigh
  omega

end

section

variable {soc : Soc} {host : Host} {dev : Dev} {skb stored : Skb} {txNum e : ℕ}

/-- A call drops the packet before the loops, drops it in the loops, or sends the buffer it
was given, up to the checksum field. -/
theorem feTxMapDma_cases (soc : Soc) (host : Host) (dev : Dev) (skb : Skb) (txNum : ℕ) :
    (((skb.gso && !host.cowOk) = true ∨ host.map 0 = none) ∧
      feTxMapDma soc host dev skb txNum = ⟨.ok, { dev with
        txRing := { dev.txRing with
          txBuf := Function.update dev.txRing.txBuf dev.txRing.txNextIdx .zero }
        txDropped := dev.txDropped + 1 }, none, [], []⟩) ∨
    ∃ addr stored, ¬(skb.gso && !host.cowOk) = true ∧ host.map 0 = some addr ∧
      (∃ check, stored = { skb with tcpCheck := check }) ∧
      ((∃ st, mapFrags dev.txRing.txRingSize (initTxd soc).txd4 host skb.frags
          (mapHead soc dev.txRing stored addr) = .error st ∧
        ∃ u, u = unwind dev.txRing.txRingSize txNum dev.txRing.txNextIdx
            { dev.txRing with txDma := st.txDma, txBuf := st.txBuf } ∧
          feTxMapDma soc host dev skb txNum = ⟨.ok, { dev with
            txRing := u.1, txDropped := dev.txDropped + 1 }, none, u.2.1, u.2.2⟩) ∨
      ∃ st, mapFrags dev.txRing.txRingSize (initTxd soc).txd4 host skb.frags
          (mapHead soc dev.txRing stored addr) = .ok st ∧
        feTxMapDma soc host dev skb txNum =
          ⟨.ok, kick host dev stored (setLast dev.txRing stored st), some stored, [], []⟩) := by
  set skb' : Skb :=
    if skb.gso && skb.gsoTcp then { skb with tcpCheck := htons skb.gsoSize } else skb with hskb'
  have hcheck : ∃ check, skb' = { skb with tcpCheck := check } := by
    rw [hskb']
    split
    · exact ⟨_, rfl⟩
    · exact ⟨skb.tcpCheck, rfl⟩
  have hfrags : skb'.frags = skb.frags := by
    obtain ⟨check, hcheck⟩ := hcheck
    rw [hcheck]
  unfold feTxMapDma
  by_cases hcow : (skb.gso && !host.cowOk) = true
  · rw [if_pos hcow]
    exact Or.inl ⟨Or.inl hcow, rfl⟩
  · rw [if_neg hcow]
    simp only [← hskb']
    cases hmap : host.map 0 with
    | none => exact Or.inl ⟨Or.inr rfl, rfl⟩
    | some addr =>
      refine Or.inr ⟨addr, skb', hcow, rfl, hcheck, ?_⟩
      simp only [hfrags]
      cases hrun : mapFrags dev.txRing.txRingSize (initTxd soc).txd4 host skb.frags
          (mapHead soc dev.txRing skb' addr) with
      | error st => exact Or.inl ⟨st, rfl, _, rfl, rfl⟩
      | ok st => exact Or.inr ⟨st, rfl, rfl⟩

theorem feTxMapDma_queued (h : (feTxMapDma soc host dev skb txNum).queued = some stored) :
    ∃ addr st, host.map 0 = some addr ∧ (∃ check, stored = { skb with tcpCheck := check }) ∧
      mapFrags dev.txRing.txRingSize (initTxd soc).txd4 host skb.frags
        (mapHead soc dev.txRing stored addr) = .ok st ∧
      feTxMapDma soc host dev skb txNum =
        ⟨.ok, kick host dev stored (setLast dev.txRing stored st), some stored, [], []⟩ := by
  rcases feTxMapDma_cases soc host dev skb txNum with
    ⟨-, hout⟩ | ⟨addr, stored', -, hmap, hcheck, ⟨st, -, u, -, hout⟩ | ⟨st, hrun, hout⟩⟩
  · rw [hout] at h
    exact absurd h (by simp)
  · rw [hout] at h
    exact absurd h (by simp)
  · have hsame := h
    rw [hout] at hsame
    obtain rfl : stored' = stored := Option.some.inj hsame
    exact ⟨addr, st, hmap, hcheck, hrun, hout⟩

/-- What the loops have laid out, as far as the ring has room for it. -/
def LaidRoom (e : ℕ) (ring : FeTxRing) (ms : List Mapping) (last : Bool) (st : MapState) : Prop :=
  ms.length = st.k + 1 ∧
    (ms.length ≤ 2 * 2 ^ e → Laid (2 ^ e) ring.txNextIdx ring.txDma ring.txBuf ms last st)

theorem laidRoom_step (defTxd4 : U32) (ring : FeTxRing) (ms : List Mapping) (st : MapState)
    (addr : U32) (len : ℕ) (last : Bool) (h : LaidRoom e ring ms false st) :
    LaidRoom e ring (ms ++ [⟨false, addr, len⟩]) last
      (mapPiece (2 ^ e) defTxd4 st addr len last) := by
  obtain ⟨hcount, hlaid⟩ := h
  have hlen : (ms ++ [(⟨false, addr, len⟩ : Mapping)]).length = ms.length + 1 := by
    rw [List.length_append, List.length_singleton]
  have hk : (mapPiece (2 ^ e) defTxd4 st addr len last).k = st.k + 1 := by
    unfold mapPiece
    split
    · rfl
    · split
      · rfl
      · rfl
  refine ⟨by omega, fun hroom => ?_⟩
  exact mapPiece_laid defTxd4 addr len last (hlaid (by omega)) (by omega)

theorem mapHead_laid (soc : Soc) (ring : FeTxRing) (skb : Skb) (addr : U32)
    (hnext : ring.txNextIdx < 2 ^ e) :
    LaidRoom e ring [⟨true, addr, skb.headlen⟩] false (mapHead soc ring skb addr) := by
  have hslot : (ring.txNextIdx + 0) % 2 ^ e = ring.txNextIdx := by
    rw [Nat.add_zero, Nat.mod_eq_of_lt hnext]
  have hhere : (mapHead soc ring skb addr).txBuf ring.txNextIdx =
      { FeTxBuf.zero with single0 := true, dmaAddr0 := addr, dmaLen0 := skb.headlen } :=
    Function.update_self _ _ _
  have hzero : (mapHead soc ring skb addr).k / 2 = 0 :=
    show 0 / 2 = 0 from rfl
  have hlaid : Laid (2 ^ e) ring.txNextIdx ring.txDma ring.txBuf [⟨true, addr, skb.headlen⟩]
      false (mapHead soc ring skb addr) :=
    { mapped := mapHead_mapped soc skb addr (Nat.mod_eq_of_lt hnext).symm
      count := rfl
      full := fun i hi => by
        rw [List.length_singleton] at hi
        omega
      half := fun _ => by
        rw [hzero, show (mapHead soc ring skb addr).j = ring.txNextIdx from rfl, hhere]
        exact ⟨⟨_, rfl, rfl, rfl⟩, rfl, rfl⟩
      whole := fun h => by
        rw [show (mapHead soc ring skb addr).k = 0 from rfl] at h
        exact absurd h (by decide)
      recorded := fun i hi => by
        rw [hzero] at hi
        obtain rfl : i = 0 := Nat.le_zero.mp hi
        rw [hslot, hhere]
        rfl }
  exact ⟨rfl, fun _ => hlaid⟩

theorem endFlag_false (hodd : (skb.frags.map pieces).sum % 2 = 1) :
    endFlag skb.frags = false ↔ skb.frags.getLast? = some 0 := by
  unfold endFlag
  cases hlast : skb.frags.getLast? with
  | none =>
    rw [List.getLast?_eq_none_iff.mp hlast] at hodd
    exact absurd hodd (by decide)
  | some f => simp

theorem setLast_recorded (ring : FeTxRing) (stored : Skb) (st : MapState) (x : ℕ) :
    ((setLast ring stored st).txBuf x).recorded = (st.txBuf x).recorded := by
  by_cases hx : x = st.j
  · rw [hx]
    show (Function.update st.txBuf st.j _ st.j).recorded = _
    rw [Function.update_self]
    rfl
  · exact congrArg FeTxBuf.recorded (Function.update_of_ne hx _ _)

end

theorem laidDescs_length (e n : ℕ) (ring : FeTxRing) (stored : Skb) (st : MapState) :
    (laidDescs e n ring stored st).length = st.k / 2 + 1 := by
  rw [laidDescs, List.length_map, List.length_range]

section

variable {host : Host} {skb stored : Skb} {ring : FeTxRing} {st : MapState} {e : ℕ}
  (hsize : ring.txRingSize = 2 ^ e) (hnext : ring.txNextIdx < 2 ^ e)
  (hk : (skb.frags.map pieces).sum = st.k)
  (h : (skb.mappings host).length ≤ 2 * 2 ^ e → Laid (2 ^ e) ring.txNextIdx ring.txDma ring.txBuf
    (skb.mappings host) (endFlag skb.frags) st)

include hk in
theorem emptyEnd_iff : st.k % 2 = 1 ∧ endFlag skb.frags = false ↔ skb.EmptyEnd := by
  rw [← hk]
  exact and_congr_right fun hodd => endFlag_false hodd

include hsize hnext hk h

theorem described_of_fits (hhead : 1 ≤ skb.headlen) (hfits : skb.headlen ≤ txDmaBufLen)
    (hfull : ¬skb.EmptyEnd) (hdescs : skb.descs ≤ feCalTxdReq skb)
    (hroom : feCalTxdReq skb < 2 ^ e) :
    Described host skb ring (setLast ring stored st) stored
      (laidDescs e ring.txNextIdx ring stored st) := by
  have hlen := mappings_length host skb
  have hds := laidDescs_length e ring.txNextIdx ring stored st
  unfold Skb.descs at hdescs
  have hst := h (by omega)
  obtain ⟨hread, hconveyed, hlast⟩ :=
    laidDescs_pairs stored hsize (Nat.mod_eq_of_lt hnext).symm hst (by omega)
  rw [if_neg (mt (emptyEnd_iff hk).mp hfull)] at hconveyed
  have hwritten := setLast_written stored hsize hst.mapped (by omega)
  refine ⟨hread, ?_, hlast, ?_, ?_, ?_, fun i hi => ?_, ?_⟩
  · rw [hconveyed]
    exact conveys_of_fits hhead hfits
  · rw [hds]
    omega
  · rw [hds, hsize]
    exact hwritten.next
  · have htwos : (List.range (st.k / 2 + 1)).flatMap
        (fun i => ((setLast ring stored st).txBuf ((ring.txNextIdx + i) % 2 ^ e)).recorded) =
          (List.range (st.k / 2 + 1)).flatMap (twos (skb.mappings host)) := by
      rw [List.flatMap_def, List.flatMap_def]
      refine congrArg List.flatten (List.map_congr_left fun i hi => ?_)
      rw [setLast_recorded]
      exact hst.recorded i (Nat.le_of_lt_succ (List.mem_range.mp hi))
    rw [hds, hsize, htwos, twos_flatMap, List.take_of_length_le (by omega)]
  · rw [hds] at hi
    rw [hsize]
    exact hwritten.dummies i hi
  · rw [hds, hsize]
    exact hwritten.last

theorem fits_of_described (hhead : 1 ≤ skb.headlen) (hroom : feCalTxdReq skb < 2 ^ e)
    {ds : List FeTxDma} (hd : Described host skb ring (setLast ring stored st) stored ds) :
    skb.headlen ≤ txDmaBufLen ∧ ¬skb.EmptyEnd ∧ skb.descs ≤ feCalTxdReq skb := by
  have hlen := mappings_length host skb
  have hpairs := hd.pairs.length hhead
  have htwo := pairs_length ds
  have hfit := hd.room
  obtain ⟨hread, hconveyed, -⟩ :=
    laidDescs_pairs stored hsize (Nat.mod_eq_of_lt hnext).symm (h (by omega)) (by omega)
  obtain rfl := Option.some.inj (hd.read.symm.trans hread)
  have hconveys := hd.pairs
  rw [hconveyed] at hconveys
  have hfull : ¬skb.EmptyEnd := by
    intro hend
    have hodd := hend.1
    rw [if_pos ((emptyEnd_iff hk).mpr hend), show 2 * (st.k / 2) = st.k - 1 by omega] at hconveys
    exact not_conveys_of_lost hk (by omega) hconveys
  rw [if_neg (mt (emptyEnd_iff hk).mp hfull)] at hconveys
  refine ⟨?_, hfull, ?_⟩
  · have hsum := hconveys.sum
    rw [cut_sum] at hsum
    have hcut := Nat.mod_lt skb.headlen (show 0 < 2 ^ 14 by decide)
    unfold txDmaBufLen
    omega
  · unfold Skb.descs
    omega

end

section

variable {soc : Soc} {host : Host} {dev : Dev} {skb stored : Skb} {txNum e : ℕ}

theorem mapFrags_laid (soc : Soc) (host : Host) (ring : FeTxRing) (skb : Skb) (addr : U32)
    (hnext : ring.txNextIdx < 2 ^ e) :
    Outcome host (LaidRoom e ring) [⟨true, addr, skb.headlen⟩]
      (skbPieces host 0 skb.frags).flatten (endFlag skb.frags) 0
      (mapFrags (2 ^ e) (initTxd soc).txd4 host skb.frags (mapHead soc ring skb addr)) :=
  mapFrags_rule (fun _ _ _ h => h.1) (laidRoom_step (initTxd soc).txd4 ring) skb.frags
    (mapHead_laid soc ring skb addr hnext)

/-- What a call that succeeds has laid out. -/
theorem feTxMapDma_laid (hsize : dev.txRing.txRingSize = 2 ^ e)
    (hnext : dev.txRing.txNextIdx < 2 ^ e)
    (hok : (feTxMapDma soc host dev skb txNum).queued = some stored) :
    ∃ st, (feTxMapDma soc host dev skb txNum).dev.txRing = setLast dev.txRing stored st ∧
      (skb.frags.map pieces).sum = st.k ∧
      ((skb.mappings host).length ≤ 2 * 2 ^ e → Laid (2 ^ e) dev.txRing.txNextIdx
        dev.txRing.txDma dev.txRing.txBuf (skb.mappings host) (endFlag skb.frags) st) := by
  obtain ⟨addr, st, hmap, ⟨check, hcheck⟩, hrun, hout⟩ := feTxMapDma_queued hok
  have hfrags : stored.frags = skb.frags := by rw [hcheck]
  have hstored : stored.headlen = skb.headlen := by rw [hcheck]; rfl
  have haddr : host.addr 0 = addr := by
    unfold Host.addr
    rw [hmap]
    rfl
  have houtcome := mapFrags_laid soc host dev.txRing stored addr hnext
  rw [hfrags, hstored, ← hsize, hrun] at houtcome
  obtain ⟨⟨hcount, hlaid⟩, -, -⟩ := houtcome
  have hms : [(⟨true, addr, skb.headlen⟩ : Mapping)] ++
      (skbPieces host 0 skb.frags).flatten.map Piece.mapping = skb.mappings host := by
    rw [Skb.mappings, haddr]
    rfl
  rw [hms] at hcount hlaid
  have hlen := mappings_length host skb
  refine ⟨st, ?_, by omega, hlaid⟩
  rw [hout]
  rfl

/-- The descriptors describe the packet if and only if the linear part fits into its field,
no complete descriptor is written again, and the pieces fit into the descriptors asked for. -/
theorem tx_descriptors_iff (hsize : dev.txRing.txRingSize = 2 ^ e)
    (hnext : dev.txRing.txNextIdx < 2 ^ e) (hroom : feCalTxdReq skb < feEmptyTxd dev.txRing)
    (hhead : 1 ≤ skb.headlen)
    (hok : (feTxMapDma soc host dev skb txNum).queued = some stored) :
    (∃ ds, Described host skb dev.txRing (feTxMapDma soc host dev skb txNum).dev.txRing
        stored ds) ↔
      skb.headlen ≤ txDmaBufLen ∧ ¬skb.EmptyEnd ∧ skb.descs ≤ feCalTxdReq skb := by
  obtain ⟨st, hring, hk, hlaid⟩ := feTxMapDma_laid hsize hnext hok
  have hempty : feEmptyTxd dev.txRing ≤ 2 ^ e := by
    rw [feEmptyTxd, hsize]
    exact Nat.sub_le _ _
  have hreq := Nat.lt_of_lt_of_le hroom hempty
  rw [hring]
  constructor
  · rintro ⟨ds, hd⟩
    exact fits_of_described hsize hnext hk hlaid hhead hreq hd
  · rintro ⟨hfits, hfull, hdescs⟩
    exact ⟨_, described_of_fits hsize hnext hk hlaid hhead hfits hfull hdescs hreq⟩

end

/-- The small packet is described in its descriptor. -/
theorem small_packet_described : ∃ ds, Described quietHost smallSkb (feOpen mt7628 64).txRing
    (feTxMapDma mt7628 quietHost (feOpen mt7628 64) smallSkb 1).dev.txRing smallSkb ds :=
  (tx_descriptors_iff (e := 6) rfl (by decide) (by decide) (by decide) rfl).mpr
    ⟨by decide, fun h => absurd h.1 (by decide), by decide⟩

/-- A linear part of 0x4000 bytes is sent, and given to the hardware as an empty one. -/
theorem long_packet_not_described :
    (feTxMapDma mt7628 quietHost (feOpen mt7628 64) { smallSkb with len := 0x4000 } 1).queued =
        some { smallSkb with len := 0x4000 } ∧
      ¬∃ ds, Described quietHost { smallSkb with len := 0x4000 } (feOpen mt7628 64).txRing
        (feTxMapDma mt7628 quietHost (feOpen mt7628 64)
          { smallSkb with len := 0x4000 } 1).dev.txRing { smallSkb with len := 0x4000 } ds := by
  refine ⟨rfl, ?_⟩
  rintro ⟨ds, hd⟩
  have hsum := hd.pairs.sum
  have hread : (descsFrom 64 (feTxMapDma mt7628 quietHost (feOpen mt7628 64)
      { smallSkb with len := 0x4000 } 1).dev.txRing.txDma 64 0).map
        (fun ds => ((ds.flatMap FeTxDma.pairs).map Prod.snd).sum) = some 0 := by decide
  rw [show descsFrom 64 _ 64 0 = some ds from hd.read, Option.map_some, Option.some.injEq] at hread
  rw [hread] at hsum
  exact absurd hsum (by decide)

end Iot7688.EthTx
