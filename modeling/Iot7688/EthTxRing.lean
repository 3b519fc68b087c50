import Iot7688.EthTx
import Iot7688.Lib.Ring
import Iot7688.Lib.Run
import Mathlib.Algebra.Order.BigOperators.Group.List
import Mathlib.Algebra.Order.Group.Nat

/-!
The transmit ring over whole runs. Descriptors are numbered by free-running
positions; reclaimed, passed by the hardware, started and written positions
stay in this order within one ring length, and the marks in tx_buf tell where
each packet ends.
-/
namespace Iot7688.EthTx

open Lib

/-- Pieces a fragment is mapped in. -/
def pieces (frag : ℕ) : ℕ := (frag + txDmaBufLen - 1) / txDmaBufLen

/-- The packets of the property: big fragments only with GSO. -/
def Skb.FragsFit (skb : Skb) : Prop := skb.gso = false → ∀ f ∈ skb.frags, f ≤ txDmaBufLen

/-- No mapping and no header copy fails. -/
def Host.Maps (host : Host) : Prop := host.cowOk = true ∧ ∀ i, (host.map i).isSome = true

/-- What the loops of fe_tx_map_dma have done after k pieces, with the packet's
first descriptor at position n. -/
structure Mapped (size n : ℕ) (txDma : ℕ → FeTxDma) (txBuf : ℕ → FeTxBuf) (st : MapState) :
    Prop where
  at_j : st.j = (n + st.k / 2) % size
  dummies : ∀ i, 2 * i < st.k → (st.txBuf ((n + i) % size)).skb = .dummy
  frame : ∀ x, (∀ i, i ≤ st.k / 2 → x ≠ (n + i) % size) →
    st.txBuf x = txBuf x ∧ st.txDma x = txDma x

theorem mapPiece_mapped {e n : ℕ} {txDma : ℕ → FeTxDma} {txBuf : ℕ → FeTxBuf}
    {st : MapState} (defTxd4 : U32) (addr : U32) (len : ℕ) (last : Bool)
    (h : Mapped (2 ^ e) n txDma txBuf st) (hroom : (st.k + 1) / 2 < 2 ^ e) :
    Mapped (2 ^ e) n txDma txBuf (mapPiece (2 ^ e) defTxd4 st addr len last) ∧
      (mapPiece (2 ^ e) defTxd4 st addr len last).k = st.k + 1 := by
  have hne : ∀ i, i < (st.k + 1) / 2 → (n + i) % 2 ^ e ≠ (n + (st.k + 1) / 2) % 2 ^ e :=
    fun i hi => Ring.slot_ne (by omega) (by omega)
  unfold mapPiece
  by_cases hodd : st.k % 2 = 1
  · rw [if_pos hodd]
    have hj : nextTxDespIdx (2 ^ e) st.j = (n + (st.k + 1) / 2) % 2 ^ e := by
      rw [h.at_j, nextTxDespIdx, Ring.next_slot]
      congr 1
      omega
    refine ⟨⟨hj, ?_, ?_⟩, rfl⟩
    · intro i hi
      have hi' : i < (st.k + 1) / 2 := by
        change 2 * i < st.k + 1 at hi
        omega
      simp only [hj]
      rw [Function.update_of_ne (hne i hi')]
      exact h.dummies i (by omega)
    · intro x hx
      have hxj : x ≠ (n + (st.k + 1) / 2) % 2 ^ e := hx _ le_rfl
      simp only [hj]
      rw [Function.update_of_ne hxj]
      exact h.frame x fun i hi => hx i (by change i ≤ (st.k + 1) / 2; omega)
  · rw [if_neg hodd]
    have hk : (st.k + 1) / 2 = st.k / 2 := by omega
    have hdum : ∀ b : FeTxBuf, b.skb = .dummy → ∀ i, 2 * i < st.k + 1 →
        (Function.update st.txBuf st.j b ((n + i) % 2 ^ e)).skb = .dummy := by
      intro b hb i hi
      by_cases hij : i = st.k / 2
      · rw [hij, ← h.at_j, Function.update_self, hb]
      · rw [h.at_j, Function.update_of_ne]
        · exact h.dummies i (by omega)
        · rw [← hk]
          exact hne i (by omega)
    have hbuf : ∀ (b : FeTxBuf) x, (∀ i, i ≤ (st.k + 1) / 2 → x ≠ (n + i) % 2 ^ e) →
        Function.update st.txBuf st.j b x = txBuf x ∧ st.txDma x = txDma x := by
      intro b x hx
      have hxj : x ≠ st.j := by
        rw [h.at_j, ← hk]
        exact hx _ le_rfl
      rw [Function.update_of_ne hxj]
      exact h.frame x fun i hi => hx i (by omega)
    have hj : st.j = (n + (st.k + 1) / 2) % 2 ^ e := by rw [hk, h.at_j]
    cases last with
    | true => exact ⟨⟨hj, hdum _ rfl, hbuf _⟩, rfl⟩
    | false =>
      refine ⟨⟨hj, hdum _ rfl, ?_⟩, rfl⟩
      intro x hx
      have hxj : x ≠ st.j := by
        rw [hj]
        exact hx _ le_rfl
      refine ⟨(hbuf _ x hx).1, ?_⟩
      show Function.update st.txDma st.j _ x = txDma x
      rw [Function.update_of_ne hxj]
      exact (hbuf .zero x hx).2

theorem pieces_pos {f : ℕ} (hf : 0 < f) : pieces f = pieces (f - min f txDmaBufLen) + 1 := by
  unfold pieces txDmaBufLen
  omega

theorem mapFrag_mapped {e n : ℕ} {txDma : ℕ → FeTxDma} {txBuf : ℕ → FeTxBuf} (defTxd4 : U32)
    {host : Host} (hhost : host.Maps) (lastFrag : Bool) (f : ℕ) (st : MapState)
    (h : Mapped (2 ^ e) n txDma txBuf st) (hroom : (st.k + pieces f) / 2 < 2 ^ e) :
    ∃ st', mapFrag (2 ^ e) defTxd4 host lastFrag f st = .ok st' ∧
      Mapped (2 ^ e) n txDma txBuf st' ∧ st'.k = st.k + pieces f := by
  induction f using Nat.strong_induction_on generalizing st with
  | h f ih =>
    rw [mapFrag]
    by_cases hf : 0 < f
    · rw [if_pos hf]
      obtain ⟨addr, haddr⟩ := Option.isSome_iff_exists.mp (hhost.2 (st.k + 1))
      rw [pieces_pos hf] at hroom ⊢
      have hmin : 0 < min f txDmaBufLen := by
        unfold txDmaBufLen
        omega
      obtain ⟨hm, hk⟩ := mapPiece_mapped defTxd4 addr (min f txDmaBufLen)
        (lastFrag && min f txDmaBufLen == f) h (by omega)
      obtain ⟨st', hrun, hm', hk'⟩ := ih (f - min f txDmaBufLen) (by omega) _ hm
        (by rw [hk]; omega)
      simp only [haddr]
      refine ⟨st', hrun, hm', ?_⟩
      omega
    · obtain rfl : f = 0 := by omega
      rw [if_neg hf]
      exact ⟨st, rfl, h, rfl⟩

theorem mapFrags_mapped {e n : ℕ} {txDma : ℕ → FeTxDma} {txBuf : ℕ → FeTxBuf} (defTxd4 : U32)
    {host : Host} (hhost : host.Maps) (frags : List ℕ) (st : MapState)
    (h : Mapped (2 ^ e) n txDma txBuf st)
    (hroom : (st.k + (frags.map pieces).sum) / 2 < 2 ^ e) :
    ∃ st', mapFrags (2 ^ e) defTxd4 host frags st = .ok st' ∧
      Mapped (2 ^ e) n txDma txBuf st' ∧ st'.k = st.k + (frags.map pieces).sum := by
  induction frags generalizing st with
  | nil => exact ⟨st, rfl, h, rfl⟩
  | cons f frags ih =>
    rw [List.map_cons, List.sum_cons] at hroom ⊢
    obtain ⟨st1, hrun1, hm1, hk1⟩ := mapFrag_mapped defTxd4 hhost frags.isEmpty f st h (by omega)
    obtain ⟨st2, hrun2, hm2, hk2⟩ := ih st1 hm1 (by omega)
    refine ⟨st2, ?_, hm2, by omega⟩
    rw [mapFrags, hrun1]
    exact hrun2

/-- Descriptors a packet takes. -/
def Skb.descs (skb : Skb) : ℕ := (skb.frags.map pieces).sum / 2 + 1

theorem gso_count (frags : List ℕ) (n : ℕ) :
    frags.foldl (fun n frag => n + (frag + txDmaBufLen - 1) / txDmaBufLen) n =
      n + (frags.map pieces).sum := by
  induction frags generalizing n with
  | nil => rfl
  | cons f frags ih =>
    rw [List.foldl_cons, ih, List.map_cons, List.sum_cons]
    unfold pieces
    omega

/-- fe_cal_txd_req never asks for too little. -/
theorem descs_le_feCalTxdReq {skb : Skb} (h : skb.FragsFit) : skb.descs ≤ feCalTxdReq skb := by
  unfold Skb.descs feCalTxdReq
  cases hg : skb.gso with
  | true =>
    simp only [if_true]
    rw [gso_count]
    omega
  | false =>
    have hfit := h hg
    have hcount : (skb.frags.map pieces).sum ≤ skb.frags.length := by
      have hone : ∀ x ∈ skb.frags.map pieces, x ≤ 1 := by
        intro x hx
        obtain ⟨f, hf, rfl⟩ := List.mem_map.mp hx
        have := hfit f hf
        unfold pieces txDmaBufLen at *
        omega
      simpa using List.sum_le_card_nsmul _ 1 hone
    simp only [Bool.false_eq_true, if_false]
    omega

/-- A packet of d descriptors was written at position n. -/
structure Written (e n d : ℕ) (ring ring' : FeTxRing) (skb : Skb) : Prop where
  size : ring'.txRingSize = ring.txRingSize
  thresh : ring'.txThresh = ring.txThresh
  free : ring'.txFreeIdx = ring.txFreeIdx
  next : ring'.txNextIdx = (n + d) % 2 ^ e
  dummies : ∀ i, i + 1 < d → (ring'.txBuf ((n + i) % 2 ^ e)).skb = .dummy
  last : (ring'.txBuf ((n + (d - 1)) % 2 ^ e)).skb = .skb skb
  frame : ∀ x, (∀ i, i < d → x ≠ (n + i) % 2 ^ e) →
    ring'.txBuf x = ring.txBuf x ∧ ring'.txDma x = ring.txDma x

theorem mapHead_mapped {e n : ℕ} (soc : Soc) {ring : FeTxRing} (skb : Skb) (addr : U32)
    (hnext : ring.txNextIdx = n % 2 ^ e) :
    Mapped (2 ^ e) n ring.txDma ring.txBuf (mapHead soc ring skb addr) := by
  have hj : ring.txNextIdx = (n + 0 / 2) % 2 ^ e := hnext
  refine ⟨hj, fun i hi => absurd hi (Nat.not_lt_zero _), fun x hx => ⟨?_, rfl⟩⟩
  have hne : x ≠ ring.txNextIdx := by
    rw [hnext]
    exact hx 0 (Nat.zero_le _)
  exact Function.update_of_ne hne _ _

theorem setLast_written {e n : ℕ} {ring : FeTxRing} (skb : Skb) {st : MapState}
    (hsize : ring.txRingSize = 2 ^ e) (h : Mapped (2 ^ e) n ring.txDma ring.txBuf st)
    (hroom : st.k / 2 + 1 < 2 ^ e) :
    Written e n (st.k / 2 + 1) ring (setLast ring skb st) skb where
  size := rfl
  thresh := rfl
  free := rfl
  next := by
    show nextTxDespIdx ring.txRingSize st.j = _
    rw [hsize, h.at_j, nextTxDespIdx, Ring.next_slot, Nat.add_assoc]
  dummies := by
    intro i hi
    have hne : (n + i) % 2 ^ e ≠ st.j := by
      rw [h.at_j]
      exact Ring.slot_ne (by omega) (by omega)
    show (Function.update st.txBuf st.j _ ((n + i) % 2 ^ e)).skb = _
    rw [Function.update_of_ne hne]
    exact h.dummies i (by omega)
  last := by
    show (Function.update st.txBuf st.j _ ((n + st.k / 2) % 2 ^ e)).skb = _
    rw [← h.at_j, Function.update_self]
  frame := by
    intro x hx
    have hne : x ≠ st.j := by
      rw [h.at_j]
      exact hx _ (Nat.lt_succ_self _)
    obtain ⟨hbuf, hdma⟩ := h.frame x fun i hi => hx i (Nat.lt_succ_of_le hi)
    constructor
    · exact (Function.update_of_ne hne _ _).trans hbuf
    · exact (Function.update_of_ne hne _ _).trans hdma

/-- Without failures fe_tx_map_dma writes the packet and kicks the queue. -/
theorem feTxMapDma_written {e n : ℕ} (soc : Soc) {host : Host} (hhost : host.Maps) {dev : Dev}
    (skb : Skb) (txNum : ℕ) (hsize : dev.txRing.txRingSize = 2 ^ e)
    (hnext : dev.txRing.txNextIdx = n % 2 ^ e) (hroom : skb.descs < 2 ^ e) :
    ∃ skb' ring, feTxMapDma soc host dev skb txNum =
        ⟨.ok, kick host dev skb' ring, some skb', [], []⟩ ∧
      skb'.len = skb.len ∧ Written e n skb.descs dev.txRing ring skb' := by
  set skb' : Skb :=
    if skb.gso && skb.gsoTcp then { skb with tcpCheck := htons skb.gsoSize } else skb with hskb'
  have hfrags : skb'.frags = skb.frags := by rw [hskb']; split <;> rfl
  have hlen : skb'.len = skb.len := by rw [hskb']; split <;> rfl
  obtain ⟨addr, haddr⟩ := Option.isSome_iff_exists.mp (hhost.2 0)
  have hcow : (skb.gso && !host.cowOk) = false := by rw [hhost.1]; simp
  unfold Skb.descs at hroom ⊢
  have hzero : (mapHead soc dev.txRing skb' addr).k = 0 := rfl
  obtain ⟨st, hrun, hst, hk⟩ := mapFrags_mapped (initTxd soc).txd4 hhost skb.frags
    (mapHead soc dev.txRing skb' addr) (mapHead_mapped soc skb' addr hnext)
    (by rw [hzero]; omega)
  rw [hzero, Nat.zero_add] at hk
  have hwritten := setLast_written skb' hsize hst (by rw [hk]; exact hroom)
  rw [hk] at hwritten
  refine ⟨skb', _, ?_, hlen, hwritten⟩
  rw [← hsize] at hrun
  simp only [feTxMapDma, hcow, haddr, Bool.false_eq_true, if_false, ← hskb', hfrags, hrun]

/-- The device with its history: the packets accepted, each with the number of
descriptors written up to and with its last, the descriptors written and
passed by the hardware so far, and the buffers freed. -/
structure Sys where
  dev : Dev
  sent : List (Skb × ℕ)
  written : ℕ
  passed : ℕ
  released : List Skb

def Sys.init (soc : Soc) (size : ℕ) : Sys := ⟨feOpen soc size, [], 0, 0, []⟩

/-- What a call of fe_start_xmit adds to the history. -/
def Sys.xmit (soc : Soc) (host : Host) (skb : Skb) (s : Sys) : Sys :=
  let out := feStartXmit soc host s.dev skb
  let size := s.dev.txRing.txRingSize
  match out.queued with
  | none => { s with dev := out.dev }
  | some skb' =>
      let descs := (out.dev.txRing.txNextIdx + size - s.dev.txRing.txNextIdx) % size
      { s with
        dev := out.dev, sent := s.sent ++ [(skb', s.written + descs)]
        written := s.written + descs }

/-- One step of the system, for packets of a kind. The hardware moves over
descriptors up to TX_CTX_IDX0; a move between the two index reads of a poll
shows in hwidx'. -/
inductive Step (soc : Soc) (kind : Skb → Prop) : Sys → Sys → Prop
  | xmit (s : Sys) (host : Host) (skb : Skb) (hkind : kind skb) (hfit : skb.FragsFit)
      (hhost : host.Maps) : Step soc kind s (s.xmit soc host skb)
  | poll (s : Sys) (budget : ℤ) (hwidx' : ℕ) (out : PollOut)
      (hout : fePollTx s.dev budget hwidx' = some out) :
      Step soc kind s { s with dev := out.dev, released := s.released ++ out.freed }
  | hw (s : Sys) (hmore : s.dev.dtxIdx ≠ s.dev.ctxIdx) :
      Step soc kind s { s with
        dev := { s.dev with dtxIdx := nextTxDespIdx s.dev.txRing.txRingSize s.dev.dtxIdx }
        passed := s.passed + 1 }

/-- The mark of the descriptor at a position: the packet that ends there. -/
def mark (sent : List (Skb × ℕ)) (a : ℕ) : SkbPtr :=
  match sent.filter fun p => p.2 = a + 1 with
  | [] => .dummy
  | p :: _ => .skb p.1

/-- The packets that end at or before a position. -/
def upto (sent : List (Skb × ℕ)) (a : ℕ) : List Skb :=
  (sent.filter fun p => p.2 ≤ a).map Prod.fst

/-- The invariant, with the positions up to which descriptors are reclaimed and
given to the hardware. -/
structure Inv (e : ℕ) (s : Sys) (reclaimed started : ℕ) : Prop where
  pos : 1 ≤ e
  small : e ≤ 16
  size : s.dev.txRing.txRingSize = 2 ^ e
  thresh : s.dev.txRing.txThresh = max (2 ^ e >>> 2) maxSkbFrags
  free : s.dev.txRing.txFreeIdx = reclaimed % 2 ^ e
  next : s.dev.txRing.txNextIdx = s.written % 2 ^ e
  dtx : s.dev.dtxIdx = s.passed % 2 ^ e
  ctx : s.dev.ctxIdx = started % 2 ^ e
  reclaimed_le : reclaimed ≤ s.passed
  passed_le : s.passed ≤ started
  started_le : started ≤ s.written
  room : s.written < reclaimed + 2 ^ e
  marks : ∀ a, reclaimed ≤ a → a < s.written →
    (s.dev.txRing.txBuf (a % 2 ^ e)).skb = mark s.sent a
  sorted : (s.sent.map Prod.snd).Pairwise (· < ·)
  ends : ∀ p ∈ s.sent, 0 < p.2 ∧ p.2 ≤ s.written
  last : s.written = 0 ∨ ∃ p ∈ s.sent, p.2 = s.written
  released : s.released = upto s.sent reclaimed

theorem feEmptyTxd_eq {e a b : ℕ} {ring : FeTxRing} (he : e ≤ 16)
    (hsize : ring.txRingSize = 2 ^ e) (hfree : ring.txFreeIdx = a % 2 ^ e)
    (hnext : ring.txNextIdx = b % 2 ^ e) (hab : a ≤ b) (hroom : b < a + 2 ^ e) :
    feEmptyTxd ring = 2 ^ e - (b - a) := by
  rw [feEmptyTxd, hsize, hfree, hnext, Ring.slot_distance (by omega) hab hroom]

theorem inv_init (soc : Soc) {e : ℕ} (he : 1 ≤ e) (he' : e ≤ 16) :
    Inv e (Sys.init soc (2 ^ e)) 0 0 where
  pos := he
  small := he'
  size := rfl
  thresh := rfl
  free := (Nat.zero_mod _).symm
  next := (Nat.zero_mod _).symm
  dtx := (Nat.zero_mod _).symm
  ctx := (Nat.zero_mod _).symm
  reclaimed_le := le_rfl
  passed_le := le_rfl
  started_le := le_rfl
  room := by
    show 0 < 0 + 2 ^ e
    rw [Nat.zero_add]
    exact Nat.two_pow_pos e
  marks := fun a _ ha => absurd ha (Nat.not_lt_zero a)
  sorted := List.Pairwise.nil
  ends := fun p hp => absurd hp List.not_mem_nil
  last := Or.inl rfl
  released := rfl

theorem inv_hw {e f c : ℕ} {s : Sys} (h : Inv e s f c) (hmore : s.dev.dtxIdx ≠ s.dev.ctxIdx) :
    Inv e { s with
      dev := { s.dev with dtxIdx := nextTxDespIdx s.dev.txRing.txRingSize s.dev.dtxIdx }
      passed := s.passed + 1 } f c := by
  have hlt : s.passed < c := by
    refine lt_of_le_of_ne h.passed_le fun heq => hmore ?_
    rw [h.dtx, h.ctx, heq]
  have hle := h.reclaimed_le
  refine { h with dtx := ?_, reclaimed_le := ?_, passed_le := hlt }
  · show nextTxDespIdx s.dev.txRing.txRingSize s.dev.dtxIdx = _
    rw [h.size, h.dtx, nextTxDespIdx, Ring.next_slot]
  · show f ≤ s.passed + 1
    omega

theorem upto_above {sent : List (Skb × ℕ)} {a : ℕ} (h : ∀ p ∈ sent, a < p.2) :
    upto sent a = [] := by
  rw [upto, List.filter_eq_nil_iff.mpr, List.map_nil]
  intro p hp
  have := h p hp
  simp only [decide_eq_true_eq]
  omega

theorem mark_above {sent : List (Skb × ℕ)} {a : ℕ} (h : ∀ p ∈ sent, p.2 ≠ a + 1) :
    mark sent a = .dummy := by
  rw [mark, List.filter_eq_nil_iff.mpr]
  intro p hp
  simpa using h p hp

/-- The packet whose last descriptor is at a position comes next. -/
theorem upto_succ {sent : List (Skb × ℕ)} (h : (sent.map Prod.snd).Pairwise (· < ·)) (a : ℕ) :
    upto sent (a + 1) = upto sent a ++
      (match mark sent a with
        | .skb p => [p]
        | _ => []) := by
  induction sent with
  | nil => rfl
  | cons p rest ih =>
    rw [List.map_cons, List.pairwise_cons] at h
    obtain ⟨hp, hrest⟩ := h
    have hlt : ∀ q ∈ rest, p.2 < q.2 := fun q hq => hp q.2 (List.mem_map_of_mem hq)
    rcases Nat.lt_trichotomy p.2 (a + 1) with hlow | heq | hhigh
    · have hmark : mark (p :: rest) a = mark rest a := by
        rw [mark, List.filter_cons_of_neg (by simp; omega)]
        rfl
      have hone : ∀ b, a ≤ b → upto (p :: rest) b = p.1 :: upto rest b := by
        intro b hb
        rw [upto, List.filter_cons_of_pos (by simp; omega)]
        rfl
      rw [hmark, hone _ le_rfl, hone _ (Nat.le_succ a), ih hrest, List.cons_append]
    · have hmark : mark (p :: rest) a = .skb p.1 := by
        rw [mark, List.filter_cons_of_pos (by simpa using heq)]
      have hnone : upto (p :: rest) a = [] := by
        refine upto_above fun q hq => ?_
        rcases List.mem_cons.mp hq with rfl | hq
        · omega
        · have := hlt q hq
          omega
      have hrest' : upto rest (a + 1) = [] := upto_above fun q hq => by
        have := hlt q hq
        omega
      rw [hmark, hnone, upto, List.filter_cons_of_pos (by simp; omega)]
      rw [upto] at hrest'
      simpa using hrest'
    · have habove : ∀ q ∈ p :: rest, a + 1 < q.2 := by
        intro q hq
        rcases List.mem_cons.mp hq with rfl | hq
        · exact hhigh
        · have := hlt q hq
          omega
      rw [upto_above habove, upto_above fun q hq => by have := habove q hq; omega,
        mark_above fun q hq => by have := habove q hq; omega]
      rfl

/-- The released packets are the first of those sent. -/
theorem upto_prefix {sent : List (Skb × ℕ)} (h : (sent.map Prod.snd).Pairwise (· < ·)) (a : ℕ) :
    ∃ k, upto sent a = (sent.take k).map Prod.fst ∧ ∀ p ∈ sent.take k, p.2 ≤ a := by
  induction sent with
  | nil => exact ⟨0, rfl, by simp⟩
  | cons p rest ih =>
    rw [List.map_cons, List.pairwise_cons] at h
    obtain ⟨hp, hrest⟩ := h
    by_cases hle : p.2 ≤ a
    · obtain ⟨k, hk, hends⟩ := ih hrest
      refine ⟨k + 1, ?_, ?_⟩
      · rw [upto, List.filter_cons_of_pos (by simpa using hle), List.map_cons, List.take_succ_cons,
          List.map_cons, ← hk]
        rfl
      · intro q hq
        rw [List.take_succ_cons, List.mem_cons] at hq
        rcases hq with rfl | hq
        · exact hle
        · exact hends q hq
    · refine ⟨0, ?_, by simp⟩
      rw [List.take_zero, List.map_nil]
      refine upto_above fun q hq => ?_
      rcases List.mem_cons.mp hq with rfl | hq
      · omega
      · have := hp q.2 (List.mem_map_of_mem hq)
        omega

/-- The poll loop at a position. -/
structure PollAt (e : ℕ) (s : Sys) (x : ℕ) (a : PollAcc) : Prop where
  idx : a.idx = x % 2 ^ e
  frame : ∀ y, x ≤ y → y < s.written →
    a.txBuf (y % 2 ^ e) = s.dev.txRing.txBuf (y % 2 ^ e)
  freed : s.released ++ a.freed = upto s.sent x
  done : a.done = a.freed.length
  bytes : a.bytesCompl = (a.freed.map Skb.len).sum % 2 ^ 32

/-- Releasing an entry moves on by one position. -/
theorem pollAt_release {e x : ℕ} {s : Sys} {a : PollAcc} (h : PollAt e s x a)
    (hsorted : (s.sent.map Prod.snd).Pairwise (· < ·)) (hroom : s.written < x + 2 ^ e)
    (hskb : (a.txBuf a.idx).skb = mark s.sent x) (b : PollAcc) (hbuf : b.txBuf = a.txBuf)
    (hidx : b.idx = a.idx) (hfreed : b.freed = a.freed)
    (hcount : match mark s.sent x with
      | .skb p => b.done = a.done + 1 ∧ b.bytesCompl = (a.bytesCompl + p.len) % 2 ^ 32
      | _ => b.done = a.done ∧ b.bytesCompl = a.bytesCompl) :
    PollAt e s (x + 1) (b.release (2 ^ e)) := by
  have hout : (feTxdUnmap (b.txBuf b.idx)).2.2 =
      (match mark s.sent x with
        | .skb p => [p]
        | _ => []) := by
    rw [hbuf, hidx]
    unfold feTxdUnmap
    cases hmark : mark s.sent x <;> simp only [hskb, hmark]
  have hnew : (b.release (2 ^ e)).freed = a.freed ++ (match mark s.sent x with
        | .skb p => [p]
        | _ => []) := by
    rw [← hout, ← hfreed]
    rfl
  refine ⟨?_, ?_, ?_, ?_, ?_⟩
  · show nextTxDespIdx (2 ^ e) b.idx = _
    rw [hidx, h.idx, nextTxDespIdx, Ring.next_slot]
  · intro y hy hyw
    show Function.update b.txBuf b.idx _ (y % 2 ^ e) = _
    have hne : y % 2 ^ e ≠ b.idx := by
      rw [hidx, h.idx]
      exact (Ring.slot_ne (by omega) (by omega)).symm
    rw [Function.update_of_ne hne, hbuf]
    exact h.frame y (by omega) hyw
  · rw [hnew, ← List.append_assoc, h.freed, upto_succ hsorted]
  · rw [hnew]
    show b.done = _
    cases hm : mark s.sent x with
    | skb p =>
      simp only [hm] at hcount
      rw [hcount.1, h.done]
      simp
    | null => simp only [hm] at hcount; rw [hcount.1, h.done]; simp
    | dummy => simp only [hm] at hcount; rw [hcount.1, h.done]; simp
  · rw [hnew]
    show b.bytesCompl = _
    cases hm : mark s.sent x with
    | skb p =>
      simp only [hm] at hcount
      rw [hcount.2, h.bytes]
      simp
    | null => simp only [hm] at hcount; rw [hcount.2, h.bytes]; simp
    | dummy => simp only [hm] at hcount; rw [hcount.2, h.bytes]; simp

theorem mark_ne_null (sent : List (Skb × ℕ)) (a : ℕ) : mark sent a ≠ .null := by
  unfold mark
  split <;> simp

/-- The loop ends within its turns, at a position up to the hardware's. -/
theorem pollLoop_at {e : ℕ} {s : Sys} (hsorted : (s.sent.map Prod.snd).Pairwise (· < ·))
    (hpassed : s.passed ≤ s.written) (turns : ℕ) {x : ℕ} {a : PollAcc} (h : PollAt e s x a)
    (hmarks : ∀ y, x ≤ y → y < s.written →
      (s.dev.txRing.txBuf (y % 2 ^ e)).skb = mark s.sent y)
    (hx : x ≤ s.passed) (hroom : s.written < x + 2 ^ e) (hturns : s.passed < x + turns) :
    ∃ a' y, pollLoop (2 ^ e) (s.passed % 2 ^ e) turns a = some a' ∧ x ≤ y ∧ y ≤ s.passed ∧
      PollAt e s y a' := by
  induction turns generalizing x a with
  | zero => omega
  | succ turns ih =>
    rw [pollLoop]
    by_cases hstop : a.idx = s.passed % 2 ^ e ∨ a.budget = 0
    · rw [if_pos hstop]
      exact ⟨a, x, rfl, le_rfl, hx, h⟩
    · rw [if_neg hstop]
      have hlt : x < s.passed := by
        refine lt_of_le_of_ne hx fun heq => hstop (Or.inl ?_)
        rw [h.idx, heq]
      have hskb : (a.txBuf a.idx).skb = mark s.sent x := by
        rw [h.idx, h.frame x le_rfl (by omega), hmarks x le_rfl (by omega)]
      have hmarks' := fun y (hy : x + 1 ≤ y) => hmarks y (Nat.le_of_succ_le hy)
      rw [hskb]
      cases hm : mark s.sent x with
      | null => exact absurd hm (mark_ne_null _ _)
      | dummy =>
        have hnext := pollAt_release h hsorted hroom hskb a rfl rfl rfl
          (by rw [hm]; exact ⟨rfl, rfl⟩)
        obtain ⟨a', y, hrun, hxy, hy, hat⟩ := ih hnext hmarks' hlt (by omega) (by omega)
        exact ⟨a', y, hrun, by omega, hy, hat⟩
      | skb p =>
        have hnext := pollAt_release h hsorted hroom hskb (a.account p) rfl rfl rfl
          (by rw [hm]; exact ⟨rfl, rfl⟩)
        obtain ⟨a', y, hrun, hxy, hy, hat⟩ := ih hnext hmarks' hlt (by omega) (by omega)
        exact ⟨a', y, hrun, by omega, hy, hat⟩

/-- A poll in a reachable state: it ends, frees the packets up to some position the
hardware has passed, reports exactly these, and keeps the invariant. -/
theorem fePollTx_spec {e f c : ℕ} {s : Sys} (h : Inv e s f c) (budget : ℤ) (hwidx' : ℕ) :
    ∃ out y, fePollTx s.dev budget hwidx' = some out ∧ f ≤ y ∧ y ≤ s.passed ∧
      s.released ++ out.freed = upto s.sent y ∧
      out.completed = (if out.freed = [] then none
        else some (out.freed.length, (out.freed.map Skb.len).sum % 2 ^ 32)) ∧
      out.dev.stopped = (s.dev.stopped && !decide (out.freed ≠ [] ∧ s.dev.stopped = true ∧
        2 ^ e - (s.written - y) > s.dev.txRing.txThresh)) ∧
      out.dev.txRing.txDma = s.dev.txRing.txDma ∧
      (∀ x, y ≤ x → x < s.written →
        out.dev.txRing.txBuf (x % 2 ^ e) = s.dev.txRing.txBuf (x % 2 ^ e)) ∧
      Inv e { s with dev := out.dev, released := s.released ++ out.freed } y c := by
  have hroom := h.room
  have hpassed := h.passed_le
  have hstarted := h.started_le
  have hreclaimed := h.reclaimed_le
  have hstart : PollAt e s f ⟨s.dev.txRing.txBuf, s.dev.txRing.txFreeIdx, budget, 0, 0, [], []⟩ :=
    ⟨h.free, fun _ _ _ => rfl, by rw [List.append_nil, h.released], rfl, rfl⟩
  obtain ⟨a, y, hrun, hfy, hy, hat⟩ := pollLoop_at h.sorted (by omega) (2 ^ e + 1) hstart
    h.marks hreclaimed hroom (by omega)
  have hempty : feEmptyTxd { s.dev.txRing with txBuf := a.txBuf, txFreeIdx := a.idx } =
      2 ^ e - (s.written - y) :=
    feEmptyTxd_eq h.small h.size hat.idx h.next (by omega) (by omega)
  have hdone : a.done ≠ 0 ↔ a.freed ≠ [] := by
    rw [hat.done, ne_eq, List.length_eq_zero_iff]
  unfold fePollTx
  simp only [h.size, h.dtx, hrun] at *
  refine ⟨_, y, rfl, hfy, hy, hat.freed, ?_, ?_, rfl, hat.frame, ?_⟩
  · by_cases hnone : a.freed = []
    · have hzero : a.done = 0 := by rw [hat.done, hnone]; rfl
      simp [hnone, hzero]
    · have hpos : a.done ≠ 0 := hdone.mpr hnone
      simp only [hpos, hnone, ne_eq, not_false_eq_true, if_true, if_false]
      rw [hat.done, hat.bytes]
  · simp only [hdone, hempty]
  · exact
      { h with
        size := rfl
        dtx := rfl
        free := hat.idx
        reclaimed_le := hy
        room := by show s.written < y + 2 ^ e; omega
        marks := fun x hx hxw => by
          show (a.txBuf (x % 2 ^ e)).skb = _
          rw [hat.frame x hx hxw, h.marks x (hfy.trans hx) hxw]
        released := hat.freed }

/-- The packet fe_start_xmit works on still fits the fragment rule. -/
theorem feSkbPadto_fit {soc : Soc} {host : Host} {skb skb' : Skb} (h : skb.FragsFit)
    (hpad : feSkbPadto soc host skb = some skb') : skb'.FragsFit := by
  unfold feSkbPadto at hpad
  split at hpad
  · obtain rfl := Option.some.inj hpad
    exact h
  · split at hpad
    · obtain rfl := Option.some.inj hpad
      intro _ f hf
      exact absurd hf List.not_mem_nil
    · simp at hpad

/-- Padding never takes more descriptors. -/
theorem feSkbPadto_count {soc : Soc} {host : Host} {skb skb' : Skb}
    (hpad : feSkbPadto soc host skb = some skb') : feCalTxdReq skb' ≤ feCalTxdReq skb := by
  unfold feSkbPadto at hpad
  split at hpad
  · obtain rfl := Option.some.inj hpad
    exact le_rfl
  · split at hpad
    · obtain rfl := Option.some.inj hpad
      unfold feCalTxdReq
      cases skb.gso with
      | true =>
        simp only [if_true]
        rw [gso_count, gso_count, List.map_nil, List.sum_nil]
        omega
      | false =>
        simp only [Bool.false_eq_true, if_false, List.length_nil]
        omega
    · simp at hpad

/-- What a call of fe_start_xmit does: nothing, a stop because of the room, or one
packet written. -/
theorem feStartXmit_cases {e f c : ℕ} {s : Sys} (h : Inv e s f c) (soc : Soc) {host : Host}
    (hhost : host.Maps) {skb : Skb} (hfit : skb.FragsFit) :
    ((feStartXmit soc host s.dev skb).queued = none ∧
      ((feStartXmit soc host s.dev skb).dev = s.dev ∨
        (feStartXmit soc host s.dev skb).dev = { s.dev with stopped := true } ∧
          2 ^ e - (s.written - f) ≤ feCalTxdReq skb)) ∨
    ∃ skb' ring d pk bt, (feStartXmit soc host s.dev skb).queued = some skb' ∧
      (feStartXmit soc host s.dev skb).dev =
        { kick host s.dev skb' ring with txPackets := pk, txBytes := bt } ∧
      0 < d ∧ s.written + d < f + 2 ^ e ∧ Written e s.written d s.dev.txRing ring skb' := by
  have hroom := h.room
  have hreclaimed := h.reclaimed_le
  have hpassed := h.passed_le
  have hstarted := h.started_le
  have hempty := feEmptyTxd_eq h.small h.size h.free h.next (by omega) h.room
  unfold feStartXmit
  cases hpad : feSkbPadto soc host skb with
  | none => exact Or.inl ⟨rfl, Or.inl rfl⟩
  | some skb1 =>
    simp only [hempty]
    have hcount := feSkbPadto_count hpad
    by_cases hfull : 2 ^ e - (s.written - f) ≤ feCalTxdReq skb1
    · rw [if_pos hfull]
      exact Or.inl ⟨rfl, Or.inr ⟨rfl, by omega⟩⟩
    · rw [if_neg hfull]
      have hdescs := descs_le_feCalTxdReq (feSkbPadto_fit hfit hpad)
      obtain ⟨skb', ring, hmap, _, hwritten⟩ := feTxMapDma_written soc hhost skb1
        (feCalTxdReq skb1) h.size h.next (by omega)
      rw [hmap]
      refine Or.inr ⟨skb', ring, skb1.descs, _, _, rfl, rfl, Nat.succ_pos _, by omega, hwritten⟩

theorem mark_append_old {sent : List (Skb × ℕ)} {skb : Skb} {a b : ℕ} (hab : a + 1 < b) :
    mark (sent ++ [(skb, b)]) a = mark sent a := by
  rw [mark, mark, List.filter_append, List.filter_cons_of_neg (by simp; omega), List.filter_nil,
    List.append_nil]

theorem mark_append_new {sent : List (Skb × ℕ)} {skb : Skb} {a : ℕ}
    (h : ∀ p ∈ sent, p.2 < a + 1) : mark (sent ++ [(skb, a + 1)]) a = .skb skb := by
  have hnone : (sent.filter fun p => p.2 = a + 1) = [] := by
    refine List.filter_eq_nil_iff.mpr fun p hp => ?_
    have := h p hp
    simp only [decide_eq_true_eq]
    omega
  rw [mark, List.filter_append, hnone, List.nil_append, List.filter_cons_of_pos (by simp)]

theorem inv_stop {e f c : ℕ} {s : Sys} (h : Inv e s f c) (stopped : Bool) :
    Inv e { s with dev := { s.dev with stopped := stopped } } f c := { h with }

/-- A packet written into the ring keeps the invariant. -/
theorem inv_written {e f c d : ℕ} {s : Sys} (h : Inv e s f c) {dev : Dev} {skb : Skb}
    (hd : 0 < d) (hroom : s.written + d < f + 2 ^ e)
    (hw : Written e s.written d s.dev.txRing dev.txRing skb) (hdtx : dev.dtxIdx = s.dev.dtxIdx)
    (hctx : dev.ctxIdx = dev.txRing.txNextIdx ∨ dev.ctxIdx = s.dev.ctxIdx) :
    ∃ c', Inv e { s with
      dev := dev, sent := s.sent ++ [(skb, s.written + d)], written := s.written + d } f c' := by
  have hreclaimed := h.reclaimed_le
  have hpassed := h.passed_le
  have hstarted := h.started_le
  have hends : ∀ p ∈ s.sent, p.2 ≤ s.written := fun p hp => (h.ends p hp).2
  have hmarks : ∀ a, f ≤ a → a < s.written + d →
      (dev.txRing.txBuf (a % 2 ^ e)).skb = mark (s.sent ++ [(skb, s.written + d)]) a := by
    intro a hfa ha
    by_cases hold : a < s.written
    · have hother : ∀ i, i < d → a % 2 ^ e ≠ (s.written + i) % 2 ^ e :=
        fun i hi => Ring.slot_ne (by omega) (by omega)
      rw [(hw.frame _ hother).1, h.marks a hfa hold, mark_append_old (by omega)]
    · obtain ⟨i, rfl⟩ := Nat.exists_eq_add_of_le (not_lt.mp hold)
      by_cases hlast : i + 1 < d
      · rw [hw.dummies i hlast, mark_append_old (by omega), mark_above]
        intro p hp
        have := hends p hp
        omega
      · obtain rfl : i = d - 1 := by omega
        rw [hw.last, show s.written + d = s.written + (d - 1) + 1 by omega, mark_append_new]
        intro p hp
        have := hends p hp
        omega
  have hsorted : ((s.sent ++ [(skb, s.written + d)]).map Prod.snd).Pairwise (· < ·) := by
    rw [List.map_append, List.pairwise_append]
    refine ⟨h.sorted, List.pairwise_singleton _ _, ?_⟩
    intro x hx y hy
    obtain ⟨p, hp, rfl⟩ := List.mem_map.mp hx
    obtain rfl : y = s.written + d := by simpa using hy
    have := hends p hp
    omega
  have hends' : ∀ p ∈ s.sent ++ [(skb, s.written + d)], 0 < p.2 ∧ p.2 ≤ s.written + d := by
    intro p hp
    rcases List.mem_append.mp hp with hp | hp
    · have := h.ends p hp
      omega
    · obtain rfl := List.mem_singleton.mp hp
      exact ⟨by omega, le_rfl⟩
  have hreleased : s.released = upto (s.sent ++ [(skb, s.written + d)]) f := by
    rw [h.released, upto, upto, List.filter_append,
      List.filter_cons_of_neg (by simp; omega), List.filter_nil, List.append_nil]
  have hinv : ∀ c', dev.ctxIdx = c' % 2 ^ e → s.passed ≤ c' → c' ≤ s.written + d →
      Inv e { s with
        dev := dev, sent := s.sent ++ [(skb, s.written + d)], written := s.written + d } f c' :=
    fun c' hc hpc hcw =>
      { pos := h.pos
        small := h.small
        size := hw.size.trans h.size
        thresh := hw.thresh.trans h.thresh
        free := hw.free.trans h.free
        next := hw.next
        dtx := hdtx.trans h.dtx
        ctx := hc
        reclaimed_le := hreclaimed
        passed_le := hpc
        started_le := hcw
        room := hroom
        marks := hmarks
        sorted := hsorted
        ends := hends'
        last := Or.inr ⟨_, List.mem_append_right _ (List.mem_singleton_self _), rfl⟩
        released := hreleased }
  rcases hctx with hctx | hctx
  · exact ⟨s.written + d, hinv _ (hctx.trans hw.next) (by omega) le_rfl⟩
  · exact ⟨c, hinv c (hctx.trans h.ctx) hpassed (by omega)⟩

theorem xmit_none {soc : Soc} {host : Host} {skb : Skb} {s : Sys}
    (h : (feStartXmit soc host s.dev skb).queued = none) :
    s.xmit soc host skb = { s with dev := (feStartXmit soc host s.dev skb).dev } := by
  simp only [Sys.xmit, h]

theorem xmit_some {soc : Soc} {host : Host} {skb skb' : Skb} {s : Sys} {d : ℕ}
    (h : (feStartXmit soc host s.dev skb).queued = some skb')
    (hd : ((feStartXmit soc host s.dev skb).dev.txRing.txNextIdx + s.dev.txRing.txRingSize -
      s.dev.txRing.txNextIdx) % s.dev.txRing.txRingSize = d) :
    s.xmit soc host skb =
      { s with
        dev := (feStartXmit soc host s.dev skb).dev
        sent := s.sent ++ [(skb', s.written + d)]
        written := s.written + d } := by
  simp only [Sys.xmit, h, hd]

/-- Every call of fe_start_xmit keeps the invariant. It leaves the queue stopped
on an empty ring only if it was, or if the packet asks for the whole ring. -/
theorem inv_xmit {e f c : ℕ} {s : Sys} (h : Inv e s f c) (soc : Soc) {host : Host}
    (hhost : host.Maps) {skb : Skb} (hfit : skb.FragsFit) :
    (∃ c', Inv e (s.xmit soc host skb) f c') ∧
      ((s.dev.stopped = true → f < s.written) → feCalTxdReq skb < 2 ^ e →
        (s.xmit soc host skb).dev.stopped = true → f < (s.xmit soc host skb).written) := by
  have hreclaimed := h.reclaimed_le
  have hpassed := h.passed_le
  have hstarted := h.started_le
  rcases feStartXmit_cases h soc hhost hfit with
    ⟨hq, hdev⟩ | ⟨skb', ring, d, pk, bt, hq, hdev, hd, hroom, hw⟩
  · rw [xmit_none hq]
    rcases hdev with hdev | ⟨hdev, hfull⟩
    · rw [hdev]
      exact ⟨⟨c, h⟩, fun hs _ hstop => hs hstop⟩
    · rw [hdev]
      refine ⟨⟨c, inv_stop h true⟩, fun _ hreq _ => ?_⟩
      show f < s.written
      omega
  · have hgap : ((feStartXmit soc host s.dev skb).dev.txRing.txNextIdx +
        s.dev.txRing.txRingSize - s.dev.txRing.txNextIdx) % s.dev.txRing.txRingSize = d := by
      rw [hdev]
      show (ring.txNextIdx + s.dev.txRing.txRingSize - s.dev.txRing.txNextIdx) %
        s.dev.txRing.txRingSize = d
      rw [hw.next, h.size, h.next]
      exact Ring.slot_gap _ (by omega)
    rw [xmit_some hq hgap]
    refine ⟨?_, fun _ _ _ => by show f < s.written + d; omega⟩
    refine inv_written h hd hroom ?_ ?_ ?_
    · rw [hdev]
      exact hw
    · rw [hdev]
      rfl
    · rw [hdev]
      show (if _ then ring.txNextIdx else s.dev.ctxIdx) = ring.txNextIdx ∨
        (if _ then ring.txNextIdx else s.dev.ctxIdx) = s.dev.ctxIdx
      split
      · exact Or.inl rfl
      · exact Or.inr rfl

/-- Slots between tx_free_idx and tx_next_idx. -/
def InFlight (ring : FeTxRing) (x : ℕ) : Prop :=
  ∃ i, x = (ring.txFreeIdx + i) % ring.txRingSize ∧
    i < (ring.txNextIdx + ring.txRingSize - ring.txFreeIdx) % ring.txRingSize

theorem inFlight_iff {e f c : ℕ} {s : Sys} (h : Inv e s f c) (x : ℕ) :
    InFlight s.dev.txRing x ↔ ∃ a, f ≤ a ∧ a < s.written ∧ x = a % 2 ^ e := by
  have hroom := h.room
  have h1 := h.reclaimed_le
  have h2 := h.passed_le
  have h3 := h.started_le
  have hgap : (s.written % 2 ^ e + 2 ^ e - f % 2 ^ e) % 2 ^ e = s.written - f := by
    have := Ring.slot_gap f (show s.written - f < 2 ^ e by omega)
    rwa [show f + (s.written - f) = s.written by omega] at this
  unfold InFlight
  rw [h.free, h.next, h.size, hgap]
  constructor
  · rintro ⟨i, rfl, hi⟩
    exact ⟨f + i, by omega, by omega, Nat.mod_add_mod ..⟩
  · rintro ⟨a, hfa, ha, rfl⟩
    refine ⟨a - f, ?_, by omega⟩
    rw [Nat.mod_add_mod, show f + (a - f) = a by omega]

theorem mark_of_end {sent : List (Skb × ℕ)} {a : ℕ} (h : ∃ p ∈ sent, p.2 = a + 1) :
    ∃ q, mark sent a = .skb q := by
  obtain ⟨p, hp, hend⟩ := h
  cases hf : sent.filter fun p => p.2 = a + 1 with
  | nil => exact absurd hend (by simpa using List.filter_eq_nil_iff.mp hf p hp)
  | cons q l => exact ⟨q.1, by rw [mark, hf]⟩

theorem upto_length_mono (sent : List (Skb × ℕ)) {a b : ℕ} (hab : a ≤ b) :
    (upto sent a).length ≤ (upto sent b).length := by
  have hsub : (sent.filter fun p => p.2 ≤ a).Sublist (sent.filter fun p => p.2 ≤ b) := by
    refine List.monotone_filter_right sent fun p hp => ?_
    simp only [decide_eq_true_eq] at hp ⊢
    omega
  simpa [upto] using hsub.length_le

/-- A poll that reclaims the last descriptor frees the packet on it. -/
theorem freed_ne_nil {e f c : ℕ} {s : Sys} (h : Inv e s f c) (hf : f < s.written)
    {freed : List Skb} (hfreed : s.released ++ freed = upto s.sent s.written) : freed ≠ [] := by
  rintro rfl
  obtain ⟨a, ha⟩ : ∃ a, s.written = a + 1 := ⟨s.written - 1, by omega⟩
  have hend : ∃ p ∈ s.sent, p.2 = a + 1 := by
    rcases h.last with hzero | hlast
    · omega
    · rwa [ha] at hlast
  obtain ⟨q, hq⟩ := mark_of_end hend
  rw [List.append_nil, h.released, ha, upto_succ h.sorted, hq] at hfreed
  have hlen := congrArg List.length hfreed
  have hmono := upto_length_mono s.sent (show f ≤ a by omega)
  rw [List.length_append, List.length_singleton] at hlen
  omega

/-- The condition on ring and packets under which the queue is never left
stopped. -/
def Fits (kind : Skb → Prop) (size : ℕ) : Prop :=
  maxSkbFrags < size ∧ ∀ skb, kind skb → feCalTxdReq skb < size

def Good (e : ℕ) (kind : Skb → Prop) (s : Sys) : Prop :=
  ∃ f c, Inv e s f c ∧ (Fits kind (2 ^ e) → s.dev.stopped = true → f < s.written)

theorem good_step {e : ℕ} {soc : Soc} {kind : Skb → Prop} (s t : Sys) (h : Good e kind s)
    (hstep : Step soc kind s t) : Good e kind t := by
  obtain ⟨f, c, hinv, hstop⟩ := h
  cases hstep with
  | xmit host skb hkind hfit hhost =>
    obtain ⟨⟨c', hinv'⟩, hstop'⟩ := inv_xmit hinv soc hhost hfit
    exact ⟨f, c', hinv', fun hfits => hstop' (hstop hfits) (hfits.2 skb hkind)⟩
  | poll budget hwidx' out hout =>
    obtain ⟨out', y, hout', hfy, hy, hfreed, _, hstopped, _, _, hinv'⟩ :=
      fePollTx_spec hinv budget hwidx'
    obtain rfl : out' = out := Option.some.inj (hout'.symm.trans hout)
    refine ⟨y, c, hinv', fun hfits hs => ?_⟩
    show y < s.written
    have h2 := hinv.passed_le
    have h3 := hinv.started_le
    by_contra hall
    obtain rfl : y = s.written := by omega
    rw [hstopped, Bool.and_eq_true] at hs
    have hnil := freed_ne_nil hinv (hstop hfits hs.1) hfreed
    have hthresh : s.dev.txRing.txThresh < 2 ^ e := by
      have h17 := hfits.1
      rw [hinv.thresh, Nat.shiftRight_eq_div_pow]
      omega
    have hwake : out'.freed ≠ [] ∧ s.dev.stopped = true ∧
        2 ^ e - (s.written - s.written) > s.dev.txRing.txThresh := ⟨hnil, hs.1, by omega⟩
    simp [hwake] at hs
    omega
  | hw hmore => exact ⟨f, c, inv_hw hinv hmore, hstop⟩

theorem feSetRingparam_size {txPending rxPending size rxSize : ℕ}
    (h : feSetRingparam txPending rxPending = some (size, rxSize)) :
    ∃ e, 1 ≤ e ∧ e ≤ 16 ∧ size = 2 ^ e := by
  unfold feSetRingparam at h
  split at h
  · simp at h
  · rename_i hrange
    simp only [Option.some.injEq, Prod.mk.injEq] at h
    unfold maxDmaDesc at hrange
    refine ⟨Nat.log2 txPending, ?_, ?_, h.1.symm⟩
    · exact (Nat.le_log2 (by omega)).mpr (by omega)
    · have hlt : Nat.log2 txPending < 17 := (Nat.log2_lt (by omega)).mpr (by omega)
      omega

/-- No step writes into a descriptor in flight; only a poll that reclaims it
touches its tx_buf. -/
theorem step_frame {e : ℕ} {soc : Soc} {kind : Skb → Prop} {s t : Sys} {f c : ℕ}
    (h : Inv e s f c) (hstep : Step soc kind s t) (x : ℕ) (hx : InFlight s.dev.txRing x) :
    t.dev.txRing.txDma x = s.dev.txRing.txDma x ∧
      (InFlight t.dev.txRing x → t.dev.txRing.txBuf x = s.dev.txRing.txBuf x) := by
  have hroom := h.room
  cases hstep with
  | xmit host skb hkind hfit hhost =>
    have hsame : (s.xmit soc host skb).dev = (feStartXmit soc host s.dev skb).dev := by
      unfold Sys.xmit
      simp only
      split <;> rfl
    rw [hsame]
    rcases feStartXmit_cases h soc hhost hfit with
      ⟨_, hdev | ⟨hdev, _⟩⟩ | ⟨skb', ring, d, pk, bt, _, hdev, _, hfits, hw⟩
    · rw [hdev]
      exact ⟨rfl, fun _ => rfl⟩
    · rw [hdev]
      exact ⟨rfl, fun _ => rfl⟩
    · obtain ⟨a, hfa, ha, rfl⟩ := (inFlight_iff h x).mp hx
      have hother : ∀ i, i < d → a % 2 ^ e ≠ (s.written + i) % 2 ^ e :=
        fun i hi => Ring.slot_ne (by omega) (by omega)
      obtain ⟨hbuf, hdma⟩ := hw.frame _ hother
      rw [hdev]
      exact ⟨hdma, fun _ => hbuf⟩
  | poll budget hwidx' out hout =>
    obtain ⟨out', y, hout', hfy, _, _, _, _, hdma, hbuf, hinv'⟩ :=
      fePollTx_spec h budget hwidx'
    obtain rfl : out' = out := Option.some.inj (hout'.symm.trans hout)
    refine ⟨congrFun hdma x, fun hx' => ?_⟩
    obtain ⟨a, hya, ha, rfl⟩ := (inFlight_iff hinv' x).mp hx'
    exact hbuf a hya ha
  | hw hmore => exact ⟨rfl, fun _ => rfl⟩

/-- A packet of 60 bytes without fragments. -/
def smallSkb : Skb where
  len := 60
  frags := []
  gso := false
  gsoTcp := false
  gsoSize := 0
  checksumPartial := false
  vlanTag := none
  is8021q := false
  xmitMore := false
  tcpCheck := 0

def mt7628 : Soc := ⟨none, false, false, false⟩

def quietHost : Host := ⟨true, true, fun _ => some 0, false⟩

theorem step_small (size : ℕ) : Step mt7628 (· = smallSkb) (Sys.init mt7628 size)
    ((Sys.init mt7628 size).xmit mt7628 quietHost smallSkb) :=
  Step.xmit _ quietHost smallSkb rfl (fun _ _ hf => absurd hf List.not_mem_nil)
    ⟨rfl, fun _ => rfl⟩

end Iot7688.EthTx
