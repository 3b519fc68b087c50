import Mathlib.Data.Nat.Bitwise
import Mathlib.Data.Nat.Log

/-!
Transmission in ralink_soc_eth.c: the ring of descriptors, fe_start_xmit,
fe_poll_tx and the ring sizes of fe_set_ringparam. Kernel services that can
fail or that the driver cannot foresee are arguments; what it hands back to the
kernel (freed buffers, undone mappings, completion reports) is output.
-/
namespace Iot7688.EthTx

abbrev U32 := BitVec 32

def maxDmaDesc : ℕ := 0xfff

/-- MAX_SKB_FRAGS with 4 KiB pages. -/
def maxSkbFrags : ℕ := 65536 / 4096 + 1

def txDmaBufLen : ℕ := 0x3fff

def txDmaPlen0 (x : ℕ) : U32 := (BitVec.ofNat 32 x &&& BitVec.ofNat 32 txDmaBufLen) <<< 16
def txDmaPlen1 (x : ℕ) : U32 := BitVec.ofNat 32 x &&& BitVec.ofNat 32 txDmaBufLen
def txDmaLs1 : U32 := 1#32 <<< 14
def txDmaLs0 : U32 := 1#32 <<< 30
def txDmaDone : U32 := 1#32 <<< 31
def txDmaDesp2Def : U32 := txDmaLs0 ||| txDmaDone
def txDmaDesp4Def : U32 := 3#32 <<< 16 ||| 1#32 <<< 24
def txDmaChksum : U32 := 7#32 <<< 29
def txDmaTso : U32 := 1#32 <<< 28
def txDmaInsVlan : U32 := 1#32 <<< 7
def txDmaInsVlanMt7621 : U32 := 1#32 <<< 16

structure FeTxDma where
  txd1 : U32
  txd2 : U32
  txd3 : U32
  txd4 : U32

def FeTxDma.zero : FeTxDma := ⟨0, 0, 0, 0⟩

/-- What the driver reads of an sk_buff. Its linear part is what the
fragments leave of len. -/
structure Skb where
  len : ℕ
  frags : List ℕ
  gso : Bool
  gsoTcp : Bool
  gsoSize : ℕ
  checksumPartial : Bool
  vlanTag : Option U32
  is8021q : Bool
  xmitMore : Bool
  tcpCheck : ℕ

def Skb.headlen (skb : Skb) : ℕ := skb.len - skb.frags.sum

/-- The skb pointer of a tx_buf: NULL, DMA_DUMMY_DESC or a buffer. -/
inductive SkbPtr
  | null
  | dummy
  | skb (p : Skb)

structure FeTxBuf where
  skb : SkbPtr
  single0 : Bool
  page0 : Bool
  page1 : Bool
  dmaAddr0 : U32
  dmaLen0 : ℕ
  dmaAddr1 : U32
  dmaLen1 : ℕ

def FeTxBuf.zero : FeTxBuf := ⟨.null, false, false, false, 0, 0, 0, 0⟩

structure FeTxRing where
  txDma : ℕ → FeTxDma
  txBuf : ℕ → FeTxBuf
  txRingSize : ℕ
  txFreeIdx : ℕ
  txNextIdx : ℕ
  txThresh : ℕ

/-- The ring, the queue, the registers TX_CTX_IDX0 and TX_DTX_IDX0 and the
statistics. -/
structure Dev where
  txRing : FeTxRing
  stopped : Bool
  ctxIdx : ℕ
  dtxIdx : ℕ
  txPackets : ℕ
  txBytes : ℕ
  txDropped : ℕ

/-- The SoC: its tx_dma hook and the flags that matter here. -/
structure Soc where
  txDma : Option (FeTxDma → FeTxDma)
  mt7621 : Bool
  padding64b : Bool
  paddingBug : Bool

def mt7620TxDma (txd : FeTxDma) : FeTxDma := txd
def mt7621TxDma (txd : FeTxDma) : FeTxDma := { txd with txd4 := 1#32 <<< 25 }
def rt5350TxDma (txd : FeTxDma) : FeTxDma := { txd with txd4 := 0 }

/-- The kernel's answers during one call: skb_pad, skb_cow_head, the
mappings in order, and whether byte queue limits have stopped the queue. -/
structure Host where
  padOk : Bool
  cowOk : Bool
  map : ℕ → Option U32
  stackXoff : Bool

def nextTxDespIdx (size x : ℕ) : ℕ := (x + 1) &&& (size - 1)

/-- Free descriptors, in 32-bit arithmetic. -/
def feEmptyTxd (ring : FeTxRing) : ℕ :=
  ring.txRingSize -
    ((ring.txNextIdx + 2 ^ 32 - ring.txFreeIdx) % 2 ^ 32 &&& (ring.txRingSize - 1))

/-- BIT(fls(tx_pending) - 1) and the same for rx; none is -EINVAL. -/
def feSetRingparam (txPending rxPending : ℕ) : Option (ℕ × ℕ) :=
  if txPending < 2 ∨ rxPending < 2 ∨ rxPending > maxDmaDesc ∨ txPending > maxDmaDesc then none
  else some (2 ^ Nat.log2 txPending, 2 ^ Nat.log2 rxPending)

def feAllocTx (soc : Soc) (size : ℕ) : FeTxRing where
  txDma _ := { (match soc.txDma with | some hook => hook .zero | none => .zero) with
    txd2 := txDmaDesp2Def }
  txBuf _ := .zero
  txRingSize := size
  txFreeIdx := 0
  txNextIdx := 0
  txThresh := max (size >>> 2) maxSkbFrags

/-- The device after fe_open. -/
def feOpen (soc : Soc) (size : ℕ) : Dev where
  txRing := feAllocTx soc size
  stopped := false
  ctxIdx := 0
  dtxIdx := 0
  txPackets := 0
  txBytes := 0
  txDropped := 0

/-- The entry, the mappings undone and the buffers freed. -/
def feTxdUnmap (b : FeTxBuf) : FeTxBuf × List (U32 × ℕ) × List Skb :=
  ({ b with single0 := false, page0 := false, page1 := false, skb := .null },
    (if b.single0 || b.page0 then [(b.dmaAddr0, b.dmaLen0)] else []) ++
      (if b.page1 then [(b.dmaAddr1, b.dmaLen1)] else []),
    match b.skb with
    | .skb p => [p]
    | _ => [])

/-- State of the mapping loops of fe_tx_map_dma; tx_buf points to entry j. -/
structure MapState where
  txDma : ℕ → FeTxDma
  txBuf : ℕ → FeTxBuf
  txd : FeTxDma
  j : ℕ
  k : ℕ

/-- One mapped piece; `last` is the last piece of the last fragment. -/
def mapPiece (size : ℕ) (defTxd4 : U32) (st : MapState) (mappedAddr : U32) (fragMapSize : ℕ)
    (last : Bool) : MapState :=
  if st.k % 2 = 1 then
    let j := nextTxDespIdx size st.j
    { st with
      txd := { st.txd with txd1 := mappedAddr, txd2 := txDmaPlen0 fragMapSize, txd4 := defTxd4 }
      txBuf := Function.update st.txBuf j
        { FeTxBuf.zero with page0 := true, dmaAddr0 := mappedAddr, dmaLen0 := fragMapSize }
      j := j
      k := st.k + 1 }
  else
    let txd :=
      { st.txd with txd3 := mappedAddr, txd2 := st.txd.txd2 ||| txDmaPlen1 fragMapSize }
    let txBuf := Function.update st.txBuf st.j
      { st.txBuf st.j with
        skb := .dummy, page1 := true, dmaAddr1 := mappedAddr, dmaLen1 := fragMapSize }
    if last then { st with txd := txd, txBuf := txBuf, k := st.k + 1 }
    else
      { st with
        txDma := Function.update st.txDma st.j txd
        txBuf := txBuf
        txd := .zero
        k := st.k + 1 }

/-- The while loop over one fragment. An error carries the state at err_dma. -/
def mapFrag (size : ℕ) (defTxd4 : U32) (host : Host) (lastFrag : Bool) (fragSize : ℕ)
    (st : MapState) : Except MapState MapState :=
  if 0 < fragSize then
    let fragMapSize := min fragSize txDmaBufLen
    match host.map (st.k + 1) with
    | none => .error st
    | some mappedAddr =>
        mapFrag size defTxd4 host lastFrag (fragSize - fragMapSize)
          (mapPiece size defTxd4 st mappedAddr fragMapSize (lastFrag && fragMapSize == fragSize))
  else .ok st
termination_by fragSize
decreasing_by
  unfold txDmaBufLen
  omega

def mapFrags (size : ℕ) (defTxd4 : U32) (host : Host) :
    List ℕ → MapState → Except MapState MapState
  | [], st => .ok st
  | frag :: frags, st =>
      match mapFrag size defTxd4 host frags.isEmpty frag st with
      | .error st => .error st
      | .ok st => mapFrags size defTxd4 host frags st

/-- err_dma: undo tx_num entries from j on. -/
def unwind (size : ℕ) : ℕ → ℕ → FeTxRing → FeTxRing × List (U32 × ℕ) × List Skb
  | 0, _, ring => (ring, [], [])
  | n + 1, j, ring =>
      let u := feTxdUnmap (ring.txBuf j)
      let r := unwind size n (nextTxDespIdx size j)
        { ring with
          txBuf := Function.update ring.txBuf j u.1
          txDma := Function.update ring.txDma j { ring.txDma j with txd2 := txDmaDesp2Def } }
      (r.1, u.2.1 ++ r.2.1, u.2.2 ++ r.2.2)

inductive TxRet
  | ok
  | busy
deriving DecidableEq

/-- What a call of fe_start_xmit leaves behind: the buffer now in the ring, if
any, and what the error path undoes. -/
structure XmitOut where
  ret : TxRet
  dev : Dev
  queued : Option Skb
  unmapped : List (U32 × ℕ)
  freed : List Skb

def feCalTxdReq (skb : Skb) : ℕ :=
  let nfrags :=
    if skb.gso then
      skb.frags.foldl (fun n frag => n + (frag + txDmaBufLen - 1) / txDmaBufLen) 1
    else 1 + skb.frags.length
  (nfrags + 1) / 2

/-- The first descriptor word 4, with the offloads of the packet. -/
def firstTxd4 (soc : Soc) (skb : Skb) (defTxd4 : U32) : U32 :=
  let txd4 := if skb.checksumPartial then defTxd4 ||| txDmaChksum else defTxd4
  let txd4 :=
    match skb.vlanTag with
    | none => txd4
    | some tag =>
        if soc.mt7621 then txd4 ||| (txDmaInsVlanMt7621 ||| tag)
        else txd4 ||| (txDmaInsVlan ||| ((tag >>> 13) <<< 4) ||| (tag &&& 0xf))
  if skb.gso && skb.gsoTcp then txd4 ||| txDmaTso else txd4

/-- htons on the little-endian SoCs. -/
def htons (n : ℕ) : ℕ := n % 256 * 256 + n / 256 % 256

/-- The descriptor fe_tx_map_dma starts from. -/
def initTxd (soc : Soc) : FeTxDma :=
  match soc.txDma with
  | some hook => hook .zero
  | none => { FeTxDma.zero with txd4 := txDmaDesp4Def }

/-- The state before the fragment loops, with the linear part mapped. -/
def mapHead (soc : Soc) (ring : FeTxRing) (skb : Skb) (mappedAddr : U32) : MapState where
  txDma := ring.txDma
  txBuf := Function.update ring.txBuf ring.txNextIdx
    { FeTxBuf.zero with single0 := true, dmaAddr0 := mappedAddr, dmaLen0 := skb.headlen }
  txd := { initTxd soc with
    txd1 := mappedAddr, txd2 := txDmaPlen0 skb.headlen
    txd4 := firstTxd4 soc skb (initTxd soc).txd4 }
  j := ring.txNextIdx
  k := 0

/-- The ring with the last segment set and the buffer stored. -/
def setLast (ring : FeTxRing) (skb : Skb) (st : MapState) : FeTxRing :=
  { ring with
    txDma := Function.update st.txDma st.j { st.txd with
      txd2 := st.txd.txd2 ||| (if st.k % 2 = 1 then txDmaLs1 else txDmaLs0) }
    txBuf := Function.update st.txBuf st.j { st.txBuf st.j with skb := .skb skb }
    txNextIdx := nextTxDespIdx ring.txRingSize st.j }

/-- Stop the queue when the room gets small, and ring the doorbell. No
descriptor is freed between the two tests of the room. -/
def kick (host : Host) (dev : Dev) (skb : Skb) (ring : FeTxRing) : Dev :=
  let stopped := dev.stopped || decide (feEmptyTxd ring ≤ ring.txThresh)
  { dev with
    txRing := ring
    stopped := stopped
    ctxIdx := if stopped || host.stackXoff || !skb.xmitMore then ring.txNextIdx else dev.ctxIdx }

def feTxMapDma (soc : Soc) (host : Host) (dev : Dev) (skb : Skb) (txNum : ℕ) : XmitOut :=
  let ring := dev.txRing
  let drop (ring : FeTxRing) : Dev :=
    { dev with txRing := ring, txDropped := dev.txDropped + 1 }
  let cleared := { ring with txBuf := Function.update ring.txBuf ring.txNextIdx .zero }
  if skb.gso && !host.cowOk then ⟨.ok, drop cleared, none, [], []⟩
  else
    let skb := if skb.gso && skb.gsoTcp then { skb with tcpCheck := htons skb.gsoSize } else skb
    match host.map 0 with
    | none => ⟨.ok, drop cleared, none, [], []⟩
    | some mappedAddr =>
        match mapFrags ring.txRingSize (initTxd soc).txd4 host skb.frags
            (mapHead soc ring skb mappedAddr) with
        | .error st =>
            let u := unwind ring.txRingSize txNum ring.txNextIdx
              { ring with txDma := st.txDma, txBuf := st.txBuf }
            ⟨.ok, drop u.1, none, u.2.1, u.2.2⟩
        | .ok st => ⟨.ok, kick host dev skb (setLast ring skb st), some skb, [], []⟩

/-- The length to pad a short packet to. -/
def padLen (soc : Soc) (skb : Skb) : Option ℕ :=
  if skb.len < 64 then
    if soc.padding64b && !soc.paddingBug then none
    else
      let len := if skb.vlanTag.isSome then some 60
        else if skb.is8021q then some 64
        else if !soc.padding64b then some 60
        else none
      len.filter (skb.len < ·)
  else none

/-- The packet after fe_skb_padto; skb_pad leaves it linear. -/
def feSkbPadto (soc : Soc) (host : Host) (skb : Skb) : Option Skb :=
  match padLen soc skb with
  | none => some skb
  | some len => if host.padOk then some { skb with len := len, frags := [] } else none

def feStartXmit (soc : Soc) (host : Host) (dev : Dev) (skb : Skb) : XmitOut :=
  match feSkbPadto soc host skb with
  | none => ⟨.ok, dev, none, [], [skb]⟩
  | some skb' =>
      let txNum := feCalTxdReq skb'
      if feEmptyTxd dev.txRing ≤ txNum then
        ⟨.busy, { dev with stopped := true }, none, [], []⟩
      else
        let out := feTxMapDma soc host dev skb' txNum
        match out.queued with
        | none => out
        | some _ =>
            { out with dev := { out.dev with
                txPackets := out.dev.txPackets + 1, txBytes := out.dev.txBytes + skb.len } }

/-- State of the loop of fe_poll_tx. -/
structure PollAcc where
  txBuf : ℕ → FeTxBuf
  idx : ℕ
  budget : ℤ
  done : ℕ
  bytesCompl : ℕ
  unmapped : List (U32 × ℕ)
  freed : List Skb

/-- Unmap the entry at idx and go on. -/
def PollAcc.release (size : ℕ) (a : PollAcc) : PollAcc :=
  let u := feTxdUnmap (a.txBuf a.idx)
  { a with
    txBuf := Function.update a.txBuf a.idx u.1
    idx := nextTxDespIdx size a.idx
    unmapped := a.unmapped ++ u.2.1
    freed := a.freed ++ u.2.2 }

def PollAcc.account (a : PollAcc) (skb : Skb) : PollAcc :=
  { a with
    bytesCompl := (a.bytesCompl + skb.len) % 2 ^ 32, done := a.done + 1, budget := a.budget - 1 }

/-- The while loop; no result when the turns given do not suffice. -/
def pollLoop (size hwidx : ℕ) : ℕ → PollAcc → Option PollAcc
  | 0, _ => none
  | turns + 1, a =>
      if a.idx = hwidx ∨ a.budget = 0 then some a
      else
        match (a.txBuf a.idx).skb with
        | .null => some a
        | .dummy => pollLoop size hwidx turns (a.release size)
        | .skb p => pollLoop size hwidx turns ((a.account p).release size)

/-- A poll: the number of packets done, the completion report, and whether the
interrupt is acknowledged or the poll is to be repeated. -/
structure PollOut where
  done : ℕ
  dev : Dev
  unmapped : List (U32 × ℕ)
  freed : List Skb
  completed : Option (ℕ × ℕ)
  txAgain : Bool

/-- fe_poll_tx; hwidx' is what the second read of the index returns. -/
def fePollTx (dev : Dev) (budget : ℤ) (hwidx' : ℕ) : Option PollOut :=
  let ring := dev.txRing
  match pollLoop ring.txRingSize dev.dtxIdx (ring.txRingSize + 1)
      ⟨ring.txBuf, ring.txFreeIdx, budget, 0, 0, [], []⟩ with
  | none => none
  | some a =>
      let ring := { ring with txBuf := a.txBuf, txFreeIdx := a.idx }
      let txAgain := !(a.idx == dev.dtxIdx && a.idx == hwidx')
      let wake := a.done ≠ 0 ∧ dev.stopped = true ∧ feEmptyTxd ring > ring.txThresh
      some ⟨a.done, { dev with txRing := ring, stopped := dev.stopped && !decide wake },
        a.unmapped, a.freed, if a.done ≠ 0 then some (a.done, a.bytesCompl) else none, txAgain⟩

end Iot7688.EthTx
