import Iot7688.Lib.Run
import Iot7688.Net

/-!
A TFTP transfer from a server that sends one block at a time. The server goes
on to the next block only after an acknowledgement of the present one, which it
may send any number of times. Blocks are counted without bound here and by 16
bits in the packets.
-/
namespace Iot7688.Net

open Lib

structure File where
  size : ℕ
  bytes : Mem

/-- The number of the last block, which is not full. -/
def File.blocks (f : File) : ℕ := f.size / tftpBlockSize + 1

def File.blockLen (f : File) (k : ℕ) : ℕ := min tftpBlockSize (f.size - (k - 1) * tftpBlockSize)

/-- The DATA packet of block k. -/
def dataPacket (f : File) (k : ℕ) : Mem := fun i =>
  if i < 4 then (be16 3 ++ be16 k).getD i 0 else f.bytes ((k - 1) * tftpBlockSize + (i - 4))

/-- An acknowledgement of block k. -/
def Frame.IsAck (fr : Frame) (k : ℕ) : Prop :=
  fr.prot = protIp ∧ fr.body.drop ipHdrSize = be16 4 ++ be16 k

/-- The client and the server: its port, the block it sends (0 is the OACK) and how
many packets the client had sent when it began to send it. -/
structure Sys where
  client : NetSt
  port : ℕ
  cur : ℕ
  mark : ℕ

inductive Event
  | oack
  | data
  | advance
  | other
  | turn
  | restart
deriving DecidableEq

/-- One step. Packets of the server are given to the current handler; all other
frames, the end of a turn of NetLoop and its restarts, after which the server
begins anew, come in between in any order. -/
inductive Step (f : File) (b : Board) : Event → Sys → Sys → Prop
  | oack (s : Sys) (buf : Mem) (pkt len : ℕ) (hcur : s.cur = 0) (hop : readU16 buf pkt = 6) :
      Step f b .oack s { s with
        client := callHandler buf pkt s.client.tftp.ourPort s.port len s.client }
  | data (s : Sys) (buf : Mem) (pkt : ℕ) (hcur : 0 < s.cur)
      (hbytes : ∀ i, i < 4 + f.blockLen s.cur → buf (pkt + i) = dataPacket f s.cur i) :
      Step f b .data s { s with
        client := callHandler buf pkt s.client.tftp.ourPort s.port (4 + f.blockLen s.cur) s.client }
  | advance (s : Sys) (fr : Frame) (hfr : fr ∈ s.client.sent.drop s.mark) (hack : fr.IsAck s.cur)
      (hmore : s.cur < f.blocks) :
      Step f b .advance s { s with cur := s.cur + 1, mark := s.client.sent.length }
  | other (s : Sys) (ping : Bool) (buf : Mem) (len : ℕ)
      (helse : Elsewhere buf s.client.tftp.ourPort) :
      Step f b .other s { s with client := netReceive ping buf len s.client }
  | turn (s : Sys) (arpExpired timeExpired : Bool) (client : NetSt)
      (hturn : turnEnd false arpExpired timeExpired s.client = (.again, client)) :
      Step f b .turn s { s with client := client }
  | restart (s : Sys) (arpExpired timeExpired oack : Bool) (clock port : ℕ) (client client' : NetSt)
      (hturn : turnEnd false arpExpired timeExpired s.client = (.restart, client))
      (hrestart : netRestart .tftp b clock client = (true, client')) :
      Step f b .restart s ⟨client', port, if oack then 0 else 1, client'.sent.length⟩

/-- The first bytes of the file lie at their places. -/
def Stored (f : File) (s : NetSt) (n : ℕ) : Prop :=
  ∀ i, i < n → s.mem ((s.loadAddr + i) % 2 ^ 32) = f.bytes i

/-- Before the first block. -/
structure Waiting (s : Sys) : Prop where
  cur : s.cur ≤ 1
  state : s.client.tftp.state = .rrq ∨
    s.client.tftp.state = .oack ∧ s.client.tftp.serverPort = s.port
  block : s.client.tftp.block = 0
  size : s.client.xferSize = 0
  notDone : s.client.netState ≠ .success
  noAck : s.cur = 1 → ∀ fr ∈ s.client.sent.drop s.mark, ¬fr.IsAck 1

/-- With a blocks received. -/
structure Receiving (f : File) (s : Sys) (a : ℕ) : Prop where
  pos : 1 ≤ a
  cur : s.cur = a ∨ s.cur = a + 1
  state : s.client.tftp.state = .data
  port : s.client.tftp.serverPort = s.port
  block : s.client.tftp.block = a % 2 ^ 16
  lastBlock : s.client.tftp.lastBlock = a % 2 ^ 16
  wrap : s.client.tftp.blockWrapOffset = a / 2 ^ 16 * 2 ^ 25 % 2 ^ 32
  size : s.client.xferSize = min f.size (a * 512)
  stored : Stored f s.client (min f.size (a * 512))
  done : s.client.netState = .success → a = f.blocks
  noAck : s.cur = a + 1 → ∀ fr ∈ s.client.sent.drop s.mark, ¬fr.IsAck (a + 1)

/-- The invariant, with a blocks received since the last request. -/
structure Inv (f : File) (s : Sys) (a : ℕ) : Prop where
  cur_le : s.cur ≤ f.blocks
  mark_le : s.mark ≤ s.client.sent.length
  ourPort : 0 ≠ s.client.tftp.ourPort
  handler : s.client.packetHandler = .tftp ∨ s.client.packetHandler = .startAgain
  phase : a = 0 ∧ Waiting s ∨ Receiving f s a

theorem toUInt8_mod (n : ℕ) : (n % 256).toUInt8 = n.toUInt8 := by
  apply UInt8.toNat_inj.mp
  simp

theorem be16_mod (n : ℕ) : be16 (n % 2 ^ 16) = be16 n := by
  have hlo : lo (n % 2 ^ 16) = lo n := by
    rw [lo, lo, ← toUInt8_mod, ← toUInt8_mod n]
    congr 1
    omega
  have hhi : hi (n % 2 ^ 16) = hi n := by
    rw [hi, hi, ← toUInt8_mod, ← toUInt8_mod (n / 256)]
    congr 1
    omega
  rw [be16, be16, hlo, hhi]

theorem be16_inj {m n : ℕ} (h : be16 m = be16 n) : m % 2 ^ 16 = n % 2 ^ 16 := by
  simp only [be16, List.cons.injEq, and_true] at h
  have hhi := congrArg UInt8.toNat h.1
  have hlo := congrArg UInt8.toNat h.2
  simp only [hi, lo, Nat.toUInt8_eq, UInt8.toNat_ofNat'] at hhi hlo
  omega

/-- The packets of a state are not acknowledgements of other blocks. -/
theorem packet_not_ack {t : Tftp} {k : ℕ}
    (hstate : t.state = .rrq ∨ t.state = .oack ∨ t.state = .data)
    (hblock : t.block % 2 ^ 16 ≠ k % 2 ^ 16) : tftpPacket t ≠ be16 4 ++ be16 k := by
  have hack : be16 4 ++ be16 t.block ≠ be16 4 ++ be16 k :=
    fun h => hblock (be16_inj (List.append_cancel_left h))
  intro h
  rcases hstate with hs | hs | hs
  · rw [tftpPacket, hs] at h
    have hop := congrArg (fun l : List Byte => l.getD 1 0) h
    exact absurd (show (1 : Byte) = 4 from hop) (by decide)
  · rw [tftpPacket, hs] at h
    exact hack h
  · rw [tftpPacket, hs] at h
    exact hack h

/-- New packets of a quiet step are no acknowledgements of other blocks either. -/
theorem Quiet.noAck {s s' : NetSt} {k mark : ℕ} (h : Quiet s s') (hmark : mark ≤ s.sent.length)
    (hpacket : tftpPacket s.tftp ≠ be16 4 ++ be16 k)
    (hold : ∀ fr ∈ s.sent.drop mark, ¬fr.IsAck k) : ∀ fr ∈ s'.sent.drop mark, ¬fr.IsAck k := by
  obtain ⟨fs, hfs, hall⟩ := h.sent
  rw [hfs, List.drop_append_of_le_length hmark]
  intro fr hfr
  rcases List.mem_append.mp hfr with hfr | hfr
  · exact hold fr hfr
  · rintro ⟨hprot, hbody⟩
    rcases hall fr hfr with harp | ⟨_, hdata⟩
    · rw [harp] at hprot
      exact absurd hprot (by decide)
    · exact hpacket (hdata.symm.trans hbody)

theorem Quiet.mark_le {s s' : NetSt} {mark : ℕ} (h : Quiet s s') (hmark : mark ≤ s.sent.length) :
    mark ≤ s'.sent.length := by
  obtain ⟨fs, hfs, _⟩ := h.sent
  rw [hfs, List.length_append]
  omega

/-- A quiet step of the client. -/
theorem inv_quiet {f : File} {s : Sys} {a : ℕ} {client : NetSt} (h : Inv f s a)
    (hq : Quiet s.client client) : Inv f { s with client := client } a := by
  obtain ⟨n, hn⟩ := hq.tftp
  refine ⟨h.cur_le, hq.mark_le h.mark_le, ?_, ?_, ?_⟩
  · show 0 ≠ client.tftp.ourPort
    rw [hn]
    exact h.ourPort
  · rcases hq.handler with hh | hh
    · show client.packetHandler = _ ∨ client.packetHandler = _
      rw [hh]
      exact h.handler
    · exact Or.inr hh
  · rcases h.phase with ⟨ha, hw⟩ | hr
    · refine Or.inl ⟨ha, hw.cur, ?_, ?_, hq.xferSize.trans hw.size,
        fun hs => hw.notDone (hq.success hs), fun hcur => ?_⟩
      · show client.tftp.state = _ ∨ client.tftp.state = _ ∧ client.tftp.serverPort = _
        rw [hn]
        exact hw.state
      · show client.tftp.block = 0
        rw [hn]
        exact hw.block
      · refine hq.noAck h.mark_le (packet_not_ack ?_ ?_) (hw.noAck hcur)
        · rcases hw.state with hs | hs
          · exact Or.inl hs
          · exact Or.inr (Or.inl hs.1)
        · rw [hw.block]
          decide
    · refine Or.inr ⟨hr.pos, hr.cur, ?_, ?_, ?_, ?_, ?_, hq.xferSize.trans hr.size, ?_,
        fun hs => hr.done (hq.success hs), fun hcur => ?_⟩
      · show client.tftp.state = _
        rw [hn]
        exact hr.state
      · show client.tftp.serverPort = _
        rw [hn]
        exact hr.port
      · show client.tftp.block = _
        rw [hn]
        exact hr.block
      · show client.tftp.lastBlock = _
        rw [hn]
        exact hr.lastBlock
      · show client.tftp.blockWrapOffset = _
        rw [hn]
        exact hr.wrap
      · intro i hi
        show client.mem ((client.loadAddr + i) % 2 ^ 32) = _
        rw [hq.mem, hq.loadAddr]
        exact hr.stored i hi
      · refine hq.noAck h.mark_le (packet_not_ack (Or.inr (Or.inr hr.state)) ?_) (hr.noAck hcur)
        rw [hr.block]
        omega

/-- Where store_block puts a block. -/
def storeOffset (block : ℕ) (t : Tftp) : ℕ :=
  ((block + 2 ^ 32 - 1) % 2 ^ 32 * tftpBlockSize + t.blockWrapOffset) % 2 ^ 32

/-- What accepting a block does, from the state with the transfer variables set. -/
structure Accepted (block : ℕ) (buf : Mem) (src len : ℕ) (s s' : NetSt) : Prop where
  mem : s'.mem = copyTo s.mem (s.loadAddr + storeOffset block s.tftp) len (buf.shift src)
  loadAddr : s'.loadAddr = s.loadAddr
  xferSize : s'.xferSize = max s.xferSize ((storeOffset block s.tftp + len) % 2 ^ 32)
  tftp : s'.tftp = { s.tftp with lastBlock := block }
  netState : s'.netState = if len < tftpBlockSize then .success else s.netState
  handler : s'.packetHandler = s.packetHandler
  sent : ∃ fs, s'.sent = s.sent ++ fs ∧ ∀ fr ∈ fs, fr.prot = protArp ∨
    fr.prot = protIp ∧ fr.body.drop ipHdrSize = tftpPacket s.tftp

theorem acceptBlock_accepted (block : ℕ) (buf : Mem) (src len : ℕ) (s : NetSt) :
    Accepted block buf src len s (acceptBlock block buf src len s) := by
  unfold acceptBlock
  dsimp only
  set t := storeBlock ((block + 2 ^ 32 - 1) % 2 ^ 32) buf src len
    { s with tftp := { s.tftp with lastBlock := block }, timeHandler := .tftpTimeout } with ht
  obtain ⟨w, n, fs, heq, hfs⟩ :=
    netSendUDPPacket_eq t.serverIP t.tftp.serverPort t.tftp.ourPort (tftpPacket t.tftp) t
  have hsize : t.xferSize = max s.xferSize ((storeOffset block s.tftp + len) % 2 ^ 32) := by
    show (if s.xferSize < (storeOffset block s.tftp + len) % 2 ^ 32 then
      (storeOffset block s.tftp + len) % 2 ^ 32 else s.xferSize) = _
    split
    · omega
    · omega
  rw [tftpSend, heq]
  split
  · exact ⟨rfl, rfl, hsize, rfl, (if_pos ‹_›).symm, rfl, fs, rfl, hfs⟩
  · exact ⟨rfl, rfl, hsize, rfl, (if_neg ‹_›).symm, rfl, fs, rfl, hfs⟩

theorem copyTo_at (m src : Mem) {off n i : ℕ} (load : ℕ) (hoff : off + n ≤ 2 ^ 32) (hi : i < 2 ^ 32) :
    copyTo m (load + off) n src ((load + i) % 2 ^ 32) =
      if off ≤ i ∧ i < off + n then src (i - off) else m ((load + i) % 2 ^ 32) := by
  have hidx : ((load + i) % 2 ^ 32 + 2 ^ 32 - (load + off) % 2 ^ 32) % 2 ^ 32 =
      (i + 2 ^ 32 - off) % 2 ^ 32 := by
    omega
  unfold copyTo
  rw [hidx]
  by_cases hin : off ≤ i ∧ i < off + n
  · rw [if_pos hin, if_pos ⟨Nat.mod_lt _ (by decide), by omega⟩]
    congr 1
    omega
  · rw [if_neg hin, if_neg]
    omega

/-- The 16-bit number and the wrap offset give the place in the file. -/
theorem storeOffset_eq {a : ℕ} {t : Tftp} (ha : a * 512 < 2 ^ 32)
    (hwrap : t.blockWrapOffset = (a + 1) / 2 ^ 16 * 2 ^ 25 % 2 ^ 32) :
    storeOffset ((a + 1) % 2 ^ 16) t = a * 512 := by
  rw [storeOffset, hwrap, tftpBlockSize]
  omega

theorem blockLen_succ (f : File) (a : ℕ) : f.blockLen (a + 1) = min 512 (f.size - a * 512) := rfl

theorem le_blocks {f : File} {a : ℕ} (h : a + 1 ≤ f.blocks) : a * 512 ≤ f.size := by
  unfold File.blocks tftpBlockSize at h
  omega

theorem dataPacket_data (f : File) (a i : ℕ) :
    dataPacket f (a + 1) (4 + i) = f.bytes (a * 512 + i) := by
  rw [dataPacket, if_neg (by omega), Nat.add_sub_cancel_left]
  rfl

/-- Block a + 1 is stored behind the a blocks received before it. -/
theorem receiving_accept {f : File} {s : Sys} {a : ℕ} {buf : Mem} {src : ℕ} {client client' : NetSt}
    (hsize : f.size < 2 ^ 32) (hcur : s.cur = a + 1) (hle : a + 1 ≤ f.blocks)
    (hstate : client.tftp.state = .data) (hport : client.tftp.serverPort = s.port)
    (hblock : client.tftp.block = (a + 1) % 2 ^ 16)
    (hwrap : client.tftp.blockWrapOffset = (a + 1) / 2 ^ 16 * 2 ^ 25 % 2 ^ 32)
    (hxfer : client.xferSize = min f.size (a * 512))
    (hstored : Stored f client (min f.size (a * 512))) (hnot : client.netState ≠ .success)
    (hbytes : ∀ i, i < f.blockLen (a + 1) → buf (src + i) = f.bytes (a * 512 + i))
    (hacc : Accepted ((a + 1) % 2 ^ 16) buf src (f.blockLen (a + 1)) client client') :
    Receiving f { s with client := client' } (a + 1) := by
  have hbelow := le_blocks hle
  have hlen := blockLen_succ f a
  have hend : a * 512 + f.blockLen (a + 1) = min f.size ((a + 1) * 512) := by omega
  have hoff := storeOffset_eq (lt_of_le_of_lt hbelow hsize) hwrap
  have hfit : a * 512 + f.blockLen (a + 1) < 2 ^ 32 := by omega
  refine ⟨by omega, Or.inl hcur, ?_, ?_, ?_, ?_, ?_, ?_, ?_, ?_, fun h => ?_⟩
  · show client'.tftp.state = _
    rw [hacc.tftp]
    exact hstate
  · show client'.tftp.serverPort = _
    rw [hacc.tftp]
    exact hport
  · show client'.tftp.block = _
    rw [hacc.tftp]
    exact hblock
  · show client'.tftp.lastBlock = _
    rw [hacc.tftp]
  · show client'.tftp.blockWrapOffset = _
    rw [hacc.tftp]
    exact hwrap
  · have hx := hacc.xferSize
    rw [hoff, hxfer, Nat.mod_eq_of_lt hfit, hend] at hx
    show client'.xferSize = _
    omega
  · intro i hi
    have hi32 : i < 2 ^ 32 := by omega
    have hat := copyTo_at client.mem (buf.shift src) client.loadAddr (le_of_lt hfit) hi32
    show client'.mem ((client'.loadAddr + i) % 2 ^ 32) = _
    rw [hacc.mem, hacc.loadAddr, hoff, hat]
    by_cases hnew : a * 512 ≤ i ∧ i < a * 512 + f.blockLen (a + 1)
    · have hb := hbytes (i - a * 512) (by omega)
      rw [if_pos hnew, Mem.shift_apply, hb, Nat.add_sub_cancel' hnew.1]
    · have hbefore : i < a * 512 := by
        by_contra hge
        exact hnew ⟨not_lt.mp hge, hend ▸ hi⟩
      rw [if_neg hnew]
      exact hstored i (lt_min (lt_of_lt_of_le hbefore hbelow) hbefore)
  · intro hs
    have hs' : client'.netState = .success := hs
    rw [hacc.netState] at hs'
    by_cases hshort : f.blockLen (a + 1) < tftpBlockSize
    · unfold File.blocks tftpBlockSize at *
      omega
    · rw [if_neg hshort] at hs'
      exact absurd hs' hnot
  · have hcur' : s.cur = a + 1 + 1 := h
    omega

/-- The bytes of a DATA packet as the handler reads them. -/
theorem dataPacket_head {f : File} {k : ℕ} {buf : Mem} {pkt : ℕ}
    (hbytes : ∀ i, i < 4 + f.blockLen k → buf (pkt + i) = dataPacket f k i) :
    readU16 buf pkt = 3 ∧ readU16 buf (pkt + 2) = k % 2 ^ 16 := by
  have h0 := hbytes 0 (by omega)
  have h1 := hbytes 1 (by omega)
  have h2 := hbytes 2 (by omega)
  have h3 := hbytes 3 (by omega)
  constructor
  · unfold readU16
    rw [h1, show buf pkt = _ from h0]
    rfl
  · unfold readU16
    rw [show pkt + 2 + 1 = pkt + 3 from rfl, h2, h3]
    show 256 * (hi k).toNat + (lo k).toNat = _
    simp only [hi, lo, Nat.toUInt8_eq, UInt8.toNat_ofNat']
    omega

/-- A DATA packet of the server reaches tftpData while the TFTP handler is set. -/
theorem callHandler_data (f : File) {s : Sys} {buf : Mem} {pkt : ℕ}
    (hhandler : s.client.packetHandler = .tftp)
    (hport : s.client.tftp.state = .rrq ∨ s.client.tftp.serverPort = s.port)
    (hop : readU16 buf pkt = 3) :
    callHandler buf pkt s.client.tftp.ourPort s.port (4 + f.blockLen s.cur) s.client =
      tftpData buf (pkt + 2) s.port (f.blockLen s.cur) (s.client.touch (pkt + 2)) := by
  have hsrc : ¬(s.client.tftp.state ≠ .rrq ∧ s.port ≠ s.client.tftp.serverPort) := by
    rintro ⟨hs, hp⟩
    rcases hport with h | h
    · exact hs h
    · exact hp h.symm
  unfold callHandler
  rw [hhandler]
  dsimp only
  unfold tftpHandler
  rw [if_neg (not_not.mpr rfl), if_neg hsrc, if_neg (by omega)]
  dsimp only
  rw [hop, if_neg (by decide), if_pos rfl, if_neg (by omega)]
  congr 1
  omega

theorem tftpData_first {buf : Mem} {pkt src len : ℕ} {s : NetSt}
    (hstate : s.tftp.state = .rrq ∨ s.tftp.state = .oack) (hblock : readU16 buf pkt = 1) :
    tftpData buf pkt src len s = acceptBlock 1 buf (pkt + 2) len
      { s.touch (pkt + 2) with tftp := firstBlock src (countBlock 1 s.tftp) } := by
  have hfirst : (s.touch (pkt + 2)).tftp.state = .rrq ∨ (s.touch (pkt + 2)).tftp.state = .oack :=
    hstate
  unfold tftpData
  dsimp only
  rw [hblock, if_neg (fun h => h.2 rfl), if_pos hfirst, if_neg (by simp [firstBlock])]
  rfl

theorem tftpData_again {buf : Mem} {pkt src len : ℕ} {s : NetSt}
    (hstate : s.tftp.state = .rrq ∨ s.tftp.state = .oack) (hblock : readU16 buf pkt ≠ 1) :
    tftpData buf pkt src len s = netStartAgain
      { s.touch (pkt + 2) with tftp := firstBlock src (countBlock (readU16 buf pkt) s.tftp) } := by
  have hfirst : (s.touch (pkt + 2)).tftp.state = .rrq ∨ (s.touch (pkt + 2)).tftp.state = .oack :=
    hstate
  unfold tftpData
  dsimp only
  rw [if_pos ⟨hfirst, hblock⟩, if_pos hfirst]
  rfl

theorem tftpData_repeat {buf : Mem} {pkt src len : ℕ} {s : NetSt}
    (hstate : ¬(s.tftp.state = .rrq ∨ s.tftp.state = .oack))
    (hblock : readU16 buf pkt = s.tftp.lastBlock) :
    tftpData buf pkt src len s =
      { s.touch (pkt + 2) with tftp := countBlock s.tftp.lastBlock s.tftp } := by
  have hfirst : ¬((s.touch (pkt + 2)).tftp.state = .rrq ∨ (s.touch (pkt + 2)).tftp.state = .oack) :=
    hstate
  have hlast : (countBlock s.tftp.lastBlock s.tftp).lastBlock = s.tftp.lastBlock := by
    unfold countBlock
    dsimp only
    split <;> rfl
  unfold tftpData
  dsimp only
  rw [hblock, if_neg (fun h => hfirst h.1), if_neg hfirst, if_pos]
  · rfl
  · exact hlast.symm

theorem tftpData_next {buf : Mem} {pkt src len : ℕ} {s : NetSt}
    (hstate : ¬(s.tftp.state = .rrq ∨ s.tftp.state = .oack))
    (hblock : readU16 buf pkt ≠ s.tftp.lastBlock) :
    tftpData buf pkt src len s = acceptBlock (readU16 buf pkt) buf (pkt + 2) len
      { s.touch (pkt + 2) with tftp := countBlock (readU16 buf pkt) s.tftp } := by
  have hfirst : ¬((s.touch (pkt + 2)).tftp.state = .rrq ∨ (s.touch (pkt + 2)).tftp.state = .oack) :=
    hstate
  have hlast : (countBlock (readU16 buf pkt) s.tftp).lastBlock = s.tftp.lastBlock := by
    unfold countBlock
    dsimp only
    split <;> rfl
  unfold tftpData
  dsimp only
  rw [if_neg (fun h => hfirst h.1), if_neg hfirst, if_neg]
  · rfl
  · intro h
    exact hblock (h.trans hlast)

theorem not_first {t : Tftp} (h : t.state = .data) : ¬(t.state = .rrq ∨ t.state = .oack) := by
  rw [h]
  decide

/-- A number other than 0 is only recorded. -/
theorem countBlock_same {block : ℕ} {t : Tftp} (hblock : t.block = block) (hzero : block ≠ 0) :
    countBlock block t = t := by
  unfold countBlock
  dsimp only
  rw [if_neg hzero, ← hblock]

/-- The fields of countBlock. -/
theorem countBlock_eq (block : ℕ) (t : Tftp) : countBlock block t =
    { t with
      block := block
      blockWrap := if block = 0 then (t.blockWrap + 1) % 2 ^ 32 else t.blockWrap
      blockWrapOffset :=
        if block = 0 then (t.blockWrapOffset + tftpBlockSize * tftpSequenceSize) % 2 ^ 32
        else t.blockWrapOffset } := by
  unfold countBlock
  dsimp only
  split <;> rfl

theorem Accepted.mark_le {block : ℕ} {buf : Mem} {src len : ℕ} {s s' : NetSt} {mark : ℕ}
    (h : Accepted block buf src len s s') (hmark : mark ≤ s.sent.length) :
    mark ≤ s'.sent.length := by
  obtain ⟨fs, hfs, _⟩ := h.sent
  rw [hfs, List.length_append]
  omega

/-- A repeated block with the number 0, which moves the wrap offset. -/
def RepeatsZero (s : Sys) : Prop :=
  s.client.packetHandler = .tftp ∧ s.client.tftp.state = .data ∧
    s.client.tftp.lastBlock = 0 ∧ s.cur % 2 ^ 16 = 0

theorem waiting_accept {f : File} {s : Sys} {buf : Mem} {pkt : ℕ} {client client' : NetSt}
    (hsize : f.size < 2 ^ 32) (hw : Waiting s) (hcur : s.cur = 1)
    (hbytes : ∀ i, i < f.blockLen 1 → buf (pkt + i) = f.bytes (0 * 512 + i)) {rx : Rx}
    (hclient : client =
      { s.client with tftp := firstBlock s.port (countBlock 1 s.client.tftp), rx := rx })
    (hacc : Accepted 1 buf pkt (f.blockLen s.cur) client client') :
    Receiving f { s with client := client' } 1 := by
  rw [hcur] at hacc
  have hone : 1 = (0 + 1) % 2 ^ 16 := by decide
  have hwrap : 0 = (0 + 1) / 2 ^ 16 * 2 ^ 25 % 2 ^ 32 := by decide
  have hempty : min f.size (0 * 512) = 0 := by omega
  refine receiving_accept hsize hcur (Nat.succ_le_succ (Nat.zero_le _)) ?_ ?_ ?_ ?_ ?_ ?_ ?_ hbytes
    (hone ▸ hacc)
  · rw [hclient]
    rfl
  · rw [hclient]
    rfl
  · rw [hclient, ← hone]
    rfl
  · rw [hclient, ← hwrap]
    rfl
  · rw [hclient, hempty]
    exact hw.size
  · rw [hempty]
    intro i hi
    exact absurd hi (Nat.not_lt_zero i)
  · rw [hclient]
    exact hw.notDone

theorem receiving_next {f : File} {s : Sys} {a : ℕ} {buf : Mem} {pkt : ℕ} {client client' : NetSt}
    (hsize : f.size < 2 ^ 32) (hr : Receiving f s a) (hcur : s.cur = a + 1)
    (hle : a + 1 ≤ f.blocks)
    (hbytes : ∀ i, i < f.blockLen (a + 1) → buf (pkt + i) = f.bytes (a * 512 + i)) {rx : Rx}
    (hclient : client =
      { s.client with tftp := countBlock (s.cur % 2 ^ 16) s.client.tftp, rx := rx })
    (hacc : Accepted (s.cur % 2 ^ 16) buf pkt (f.blockLen s.cur) client client') :
    Receiving f { s with client := client' } (a + 1) := by
  rw [hcur] at hacc hclient
  have hnot : s.client.netState ≠ .success := fun h => by
    have := hr.done h
    omega
  have hcount : client.tftp = countBlock ((a + 1) % 2 ^ 16) s.client.tftp := by rw [hclient]
  have hmem : client.mem = s.client.mem := by rw [hclient]
  have hload : client.loadAddr = s.client.loadAddr := by rw [hclient]
  have hxfer : client.xferSize = s.client.xferSize := by rw [hclient]
  have hstate : client.netState = s.client.netState := by rw [hclient]
  refine receiving_accept hsize hcur hle ?_ ?_ ?_ ?_ (hxfer.trans hr.size) ?_ (hstate ▸ hnot) hbytes
    hacc
  · rw [hcount, countBlock_eq]
    exact hr.state
  · rw [hcount, countBlock_eq]
    exact hr.port
  · rw [hcount, countBlock_eq]
  · -- the wrap offset moves exactly when a multiple of 2 ^ 16 is reached
    have hwrap := hr.wrap
    rw [hcount, countBlock_eq]
    dsimp only
    split
    · rw [hwrap, tftpBlockSize, tftpSequenceSize]
      omega
    · rw [hwrap]
      omega
  · intro i hi
    rw [hmem, hload]
    exact hr.stored i hi

theorem inv_accept {f : File} {s : Sys} {a n block : ℕ} {buf : Mem} {src len : ℕ}
    {client client' : NetSt} (h : Inv f s a) (hacc : Accepted block buf src len client client')
    (hport : client.tftp.ourPort = s.client.tftp.ourPort) (hsent : client.sent = s.client.sent)
    (hhandler : client.packetHandler = s.client.packetHandler)
    (hr : Receiving f { s with client := client' } n) : Inv f { s with client := client' } n := by
  refine ⟨h.cur_le, hacc.mark_le (hsent ▸ h.mark_le), ?_, ?_, Or.inr hr⟩
  · show 0 ≠ client'.tftp.ourPort
    rw [hacc.tftp]
    exact hport ▸ h.ourPort
  · show client'.packetHandler = _ ∨ client'.packetHandler = _
    rw [hacc.handler, hhandler]
    exact h.handler

/-- A repeated block is not stored again. -/
theorem callHandler_repeat {f : File} {s : Sys} {a : ℕ} {buf : Mem} {pkt : ℕ}
    (hhandler : s.client.packetHandler = .tftp) (hr : Receiving f s a) (hcur : s.cur = a)
    (hbytes : ∀ i, i < 4 + f.blockLen s.cur → buf (pkt + i) = dataPacket f s.cur i) :
    callHandler buf pkt s.client.tftp.ourPort s.port (4 + f.blockLen s.cur) s.client =
      { (s.client.touch (pkt + 2)).touch (pkt + 2 + 2) with
        tftp := countBlock s.client.tftp.lastBlock s.client.tftp } := by
  obtain ⟨hop, hnumber⟩ := dataPacket_head hbytes
  have hstate : (s.client.touch (pkt + 2)).tftp.state = .data := hr.state
  have hsame : readU16 buf (pkt + 2) = (s.client.touch (pkt + 2)).tftp.lastBlock := by
    rw [hnumber, hcur]
    exact hr.lastBlock.symm
  rw [callHandler_data f hhandler (Or.inr hr.port) hop, tftpData_repeat (not_first hstate) hsame]
  rfl

theorem callHandler_first {f : File} {s : Sys} {buf : Mem} {pkt : ℕ}
    (hhandler : s.client.packetHandler = .tftp) (hw : Waiting s) (hcur : s.cur = 1)
    (hbytes : ∀ i, i < 4 + f.blockLen s.cur → buf (pkt + i) = dataPacket f s.cur i) :
    callHandler buf pkt s.client.tftp.ourPort s.port (4 + f.blockLen s.cur) s.client =
      acceptBlock 1 buf (pkt + 2 + 2) (f.blockLen s.cur)
        { (s.client.touch (pkt + 2)).touch (pkt + 2 + 2) with
          tftp := firstBlock s.port (countBlock 1 s.client.tftp) } := by
  obtain ⟨hop, hnumber⟩ := dataPacket_head hbytes
  rw [hcur] at hnumber
  have hsrc : s.client.tftp.state = .rrq ∨ s.client.tftp.serverPort = s.port := by
    rcases hw.state with hs | hs
    · exact Or.inl hs
    · exact Or.inr hs.2
  have hfirst : (s.client.touch (pkt + 2)).tftp.state = .rrq ∨
      (s.client.touch (pkt + 2)).tftp.state = .oack := by
    rcases hw.state with hs | hs
    · exact Or.inl hs
    · exact Or.inr hs.1
  rw [callHandler_data f hhandler hsrc hop, tftpData_first hfirst hnumber]
  rfl

theorem callHandler_next {f : File} {s : Sys} {a : ℕ} {buf : Mem} {pkt : ℕ}
    (hhandler : s.client.packetHandler = .tftp) (hr : Receiving f s a) (hcur : s.cur = a + 1)
    (hbytes : ∀ i, i < 4 + f.blockLen s.cur → buf (pkt + i) = dataPacket f s.cur i) :
    callHandler buf pkt s.client.tftp.ourPort s.port (4 + f.blockLen s.cur) s.client =
      acceptBlock (s.cur % 2 ^ 16) buf (pkt + 2 + 2) (f.blockLen s.cur)
        { (s.client.touch (pkt + 2)).touch (pkt + 2 + 2) with
          tftp := countBlock (s.cur % 2 ^ 16) s.client.tftp } := by
  obtain ⟨hop, hnumber⟩ := dataPacket_head hbytes
  have hstate : (s.client.touch (pkt + 2)).tftp.state = .data := hr.state
  have hnew : readU16 buf (pkt + 2) ≠ (s.client.touch (pkt + 2)).tftp.lastBlock := by
    show _ ≠ s.client.tftp.lastBlock
    rw [hnumber, hcur, hr.lastBlock]
    omega
  rw [callHandler_data f hhandler (Or.inr hr.port) hop, tftpData_next (not_first hstate) hnew, hnumber]
  rfl

/-- A DATA packet that comes while the transfer is given up, or a repeated one. -/
theorem inv_ignored {f : File} {s : Sys} {a : ℕ} {buf : Mem} {pkt : ℕ} (h : Inv f s a)
    (hcur : 0 < s.cur) (hold : s.client.packetHandler ≠ .tftp ∨ s.cur = a) (hzero : ¬RepeatsZero s)
    (hbytes : ∀ i, i < 4 + f.blockLen s.cur → buf (pkt + i) = dataPacket f s.cur i) :
    Inv f { s with
      client := callHandler buf pkt s.client.tftp.ourPort s.port (4 + f.blockLen s.cur)
        s.client } a := by
  rcases h.handler.symm with hhandler | hhandler
  · have hsame : callHandler buf pkt s.client.tftp.ourPort s.port (4 + f.blockLen s.cur) s.client =
        s.client := by
      rw [callHandler, hhandler]
    rw [hsame]
    exact h
  · have ha : s.cur = a := hold.resolve_left (not_not.mpr hhandler)
    have hr := h.phase.resolve_left (by omega)
    have hlast : s.client.tftp.lastBlock ≠ 0 := fun hl => by
      refine hzero ⟨hhandler, hr.state, hl, ?_⟩
      rw [ha, ← hr.lastBlock, hl]
    rw [callHandler_repeat hhandler hr ha hbytes,
      countBlock_same (hr.block.trans hr.lastBlock.symm) hlast]
    exact inv_quiet h (Quiet.of_same rfl rfl rfl rfl rfl rfl rfl)

/-- The next block. -/
theorem inv_block {f : File} {s : Sys} {a : ℕ} {buf : Mem} {pkt : ℕ} (hsize : f.size < 2 ^ 32)
    (h : Inv f s a) (hhandler : s.client.packetHandler = .tftp) (hcur : s.cur = a + 1)
    (hbytes : ∀ i, i < 4 + f.blockLen s.cur → buf (pkt + i) = dataPacket f s.cur i) :
    Inv f { s with
      client := callHandler buf pkt s.client.tftp.ourPort s.port (4 + f.blockLen s.cur)
        s.client } (a + 1) := by
  have hfile : ∀ i, i < f.blockLen (a + 1) → buf (pkt + 2 + 2 + i) = f.bytes (a * 512 + i) := by
    intro i hi
    have hb := hbytes (4 + i) (by rw [hcur]; omega)
    rw [hcur, dataPacket_data] at hb
    rw [← hb]
    congr 1
    omega
  rcases h.phase with ⟨rfl, hw⟩ | hr
  · rw [callHandler_first hhandler hw hcur hbytes]
    have hacc := acceptBlock_accepted 1 buf (pkt + 2 + 2) (f.blockLen s.cur)
      { (s.client.touch (pkt + 2)).touch (pkt + 2 + 2) with
        tftp := firstBlock s.port (countBlock 1 s.client.tftp) }
    exact inv_accept h hacc rfl rfl rfl (waiting_accept hsize hw hcur hfile rfl hacc)
  · rw [callHandler_next hhandler hr hcur hbytes]
    have hacc := acceptBlock_accepted (s.cur % 2 ^ 16) buf (pkt + 2 + 2) (f.blockLen s.cur)
      { (s.client.touch (pkt + 2)).touch (pkt + 2 + 2) with
        tftp := countBlock (s.cur % 2 ^ 16) s.client.tftp }
    have hport : (countBlock (s.cur % 2 ^ 16) s.client.tftp).ourPort = s.client.tftp.ourPort := by
      rw [countBlock_eq]
    exact inv_accept h hacc hport rfl rfl
      (receiving_next hsize hr hcur (hcur ▸ h.cur_le) hfile rfl hacc)

theorem inv_oack {f : File} {s : Sys} {a : ℕ} {buf : Mem} {pkt : ℕ} (len : ℕ) (h : Inv f s a)
    (hcur : s.cur = 0) (hop : readU16 buf pkt = 6) :
    Inv f { s with
      client := callHandler buf pkt s.client.tftp.ourPort s.port len s.client } a := by
  rcases h.phase with ⟨ha, hw⟩ | hr
  · rcases h.handler.symm with hhandler | hhandler
    · have hsame : callHandler buf pkt s.client.tftp.ourPort s.port len s.client = s.client := by
        rw [callHandler, hhandler]
      rw [hsame]
      exact h
    · have hsrc : ¬(s.client.tftp.state ≠ .rrq ∧ s.port ≠ s.client.tftp.serverPort) := by
        rintro ⟨hs, hp⟩
        rcases hw.state with hstate | ⟨_, hport⟩
        · exact hs hstate
        · exact hp hport.symm
      have heq : callHandler buf pkt s.client.tftp.ourPort s.port len s.client =
          if len < 2 then s.client
          else tftpSend { s.client.touch (pkt + 2) with
            tftp := { s.client.tftp with state := .oack, serverPort := s.port } } := by
        unfold callHandler
        rw [hhandler]
        dsimp only
        unfold tftpHandler
        rw [if_neg (not_not.mpr rfl), if_neg hsrc]
        split
        · rfl
        · rw [if_pos hop]
          rfl
      rw [heq]
      split
      · exact h
      · have hset : Inv f { s with
            client := { s.client.touch (pkt + 2) with
              tftp := { s.client.tftp with state := .oack, serverPort := s.port } } } a :=
          ⟨h.cur_le, h.mark_le, h.ourPort, Or.inl hhandler,
            Or.inl ⟨ha, hw.cur, Or.inr ⟨rfl, rfl⟩, hw.block, hw.size, hw.notDone, fun hone =>
              absurd (hcur.symm.trans hone) Nat.zero_ne_one⟩⟩
        have hdone := inv_quiet hset (tftpSend_quiet _)
        exact hdone
  · have hpos := hr.pos
    have := hr.cur
    omega

theorem inv_advance {f : File} {s : Sys} {a : ℕ} {fr : Frame} (h : Inv f s a)
    (hfr : fr ∈ s.client.sent.drop s.mark) (hack : fr.IsAck s.cur) (hmore : s.cur < f.blocks) :
    Inv f { s with cur := s.cur + 1, mark := s.client.sent.length } a := by
  have hnone : ∀ k, ∀ fr ∈ s.client.sent.drop s.client.sent.length, ¬fr.IsAck k := by
    intro k fr hfr
    rw [List.drop_length] at hfr
    exact absurd hfr List.not_mem_nil
  refine ⟨hmore, le_refl _, h.ourPort, h.handler, ?_⟩
  rcases h.phase with ⟨ha, hw⟩ | hr
  · have hzero : s.cur = 0 := by
      by_contra hne
      have hone : s.cur = 1 := by
        have := hw.cur
        omega
      exact hw.noAck hone fr hfr (hone ▸ hack)
    exact Or.inl ⟨ha, Nat.succ_le_succ (le_of_eq hzero), hw.state, hw.block, hw.size, hw.notDone,
      fun _ => hnone 1⟩
  · have ha : s.cur = a := by
      rcases hr.cur with ha | ha
      · exact ha
      · exact absurd (ha ▸ hack) (hr.noAck ha fr hfr)
    exact Or.inr ⟨hr.pos, Or.inr (congrArg Nat.succ ha), hr.state, hr.port, hr.block,
      hr.lastBlock, hr.wrap, hr.size, hr.stored, hr.done, fun _ => hnone (a + 1)⟩

theorem ite_loadAddr {p : Prop} [Decidable p] {s t : NetSt} {a : ℕ} (hs : s.loadAddr = a)
    (ht : t.loadAddr = a) : (if p then s else t).loadAddr = a := by
  split
  · exact hs
  · exact ht

theorem tftpData_loadAddr (buf : Mem) (pkt src len : ℕ) (s : NetSt) :
    (tftpData buf pkt src len s).loadAddr = s.loadAddr :=
  ite_loadAddr (netStartAgain_quiet _).loadAddr
    (ite_loadAddr rfl (acceptBlock_accepted _ _ _ _ _).loadAddr)

/-- The load address is left alone by every packet. -/
theorem tftpHandler_loadAddr (buf : Mem) (pkt dest src len : ℕ) (s : NetSt) :
    (tftpHandler buf pkt dest src len s).loadAddr = s.loadAddr :=
  ite_loadAddr rfl (ite_loadAddr rfl (ite_loadAddr rfl (ite_loadAddr (tftpSend_quiet _).loadAddr
    (ite_loadAddr (ite_loadAddr rfl (tftpData_loadAddr _ _ _ _ _))
      (ite_loadAddr (netStartAgain_quiet _).loadAddr rfl)))))

theorem callHandler_loadAddr {s : NetSt} (hping : s.packetHandler ≠ .ping) (buf : Mem)
    (pkt dest src len : ℕ) : (callHandler buf pkt dest src len s).loadAddr = s.loadAddr := by
  unfold callHandler
  split
  · exact tftpHandler_loadAddr buf pkt dest src len s
  · exact absurd ‹_› hping
  · rfl
  · rfl

/-- The client after the request for a file. -/
structure Requested (s s' : NetSt) : Prop where
  mem : s'.mem = s.mem
  loadAddr : s'.loadAddr = s.loadAddr
  state : s'.tftp.state = .rrq
  block : s'.tftp.block = 0
  ourPort : 0 ≠ s'.tftp.ourPort
  size : s'.xferSize = 0
  netState : s'.netState = .loop
  handler : s'.packetHandler = .tftp

theorem tftpSend_requested {s t : NetSt} (hmem : t.mem = s.mem) (hload : t.loadAddr = s.loadAddr)
    (hstate : t.tftp.state = .rrq) (hblock : t.tftp.block = 0) (hport : 0 ≠ t.tftp.ourPort)
    (hnet : t.netState = .loop) (hhandler : t.packetHandler = .tftp) :
    Requested s { tftpSend t with xferSize := 0 } := by
  obtain ⟨w, n, fs, heq, _⟩ :=
    netSendUDPPacket_eq t.serverIP t.tftp.serverPort t.tftp.ourPort (tftpPacket t.tftp) t
  rw [tftpSend, heq]
  exact ⟨hmem, hload, hstate, hblock, hport, rfl, hnet, hhandler⟩

theorem netRestart_requested {b : Board} {clock : ℕ} {s s' : NetSt}
    (h : netRestart .tftp b clock s = (true, s')) : Requested s s' := by
  unfold netRestart at h
  dsimp only at h
  split at h
  · obtain rfl := (Prod.mk.inj h).2
    refine tftpSend_requested rfl rfl rfl rfl ?_ rfl rfl
    show 0 ≠ 1024 + clock % 3072
    omega
  · exact absurd (Prod.mk.inj h).1 (by decide)

theorem inv_requested {f : File} {s s' : NetSt} (h : Requested s s') (port : ℕ) (oack : Bool) :
    Inv f ⟨s', port, if oack then 0 else 1, s'.sent.length⟩ 0 := by
  have hblocks : 1 ≤ f.blocks := Nat.succ_le_succ (Nat.zero_le _)
  have hcur : (if oack then 0 else 1) ≤ 1 := by
    split <;> decide
  refine ⟨le_trans hcur hblocks, le_refl _, h.ourPort, Or.inl h.handler,
    Or.inl ⟨rfl, hcur, Or.inl h.state,
    h.block, h.size, ?_, fun _ fr hfr => ?_⟩⟩
  · show s'.netState ≠ .success
    rw [h.netState]
    decide
  · have hfr' : fr ∈ s'.sent.drop s'.sent.length := hfr
    rw [List.drop_length] at hfr'
    exact absurd hfr' List.not_mem_nil

theorem Inv.not_ping {f : File} {s : Sys} {a : ℕ} (h : Inv f s a) :
    s.client.packetHandler ≠ .ping := by
  rcases h.handler with hh | hh
  · rw [hh]
    decide
  · rw [hh]
    decide

/-- The server is at the block received last or at the next one. -/
theorem Inv.cur {f : File} {s : Sys} {a : ℕ} (h : Inv f s a) : s.cur = a ∨ s.cur = a + 1 := by
  rcases h.phase with ⟨ha, hw⟩ | hr
  · have := hw.cur
    omega
  · exact hr.cur

theorem Inv.size {f : File} {s : Sys} {a : ℕ} (h : Inv f s a) :
    s.client.xferSize = min f.size (a * 512) := by
  rcases h.phase with ⟨ha, hw⟩ | hr
  · rw [hw.size, ha]
    omega
  · exact hr.size

/-- A step without a DATA packet. -/
theorem inv_step_other {f : File} {b : Board} {e : Event} {s s' : Sys} {a : ℕ} (h : Inv f s a)
    (hstep : Step f b e s s') (hdata : e ≠ .data) (hrestart : e ≠ .restart) : Inv f s' a := by
  cases hstep with
  | oack _ buf pkt len hcur hop => exact inv_oack len h hcur hop
  | data => exact absurd rfl hdata
  | advance _ fr hfr hack hmore => exact inv_advance h hfr hack hmore
  | other _ ping buf len helse =>
    exact inv_quiet h (netReceive_quiet ping len helse h.ourPort h.not_ping)
  | turn _ arpExpired timeExpired client hturn =>
    have hq := turnEnd_quiet false arpExpired timeExpired s.client
    rw [hturn] at hq
    exact inv_quiet h hq
  | restart => exact absurd rfl hrestart

/-- One step of client and server, apart from the repeated blocks with number 0. -/
theorem inv_step {f : File} {b : Board} {e : Event} {s s' : Sys} {a : ℕ} (hsize : f.size < 2 ^ 32)
    (h : Inv f s a) (hstep : Step f b e s s') (hzero : e = .data → ¬RepeatsZero s) :
    ∃ a', Inv f s' a' := by
  by_cases hrestart : e = .restart
  · subst hrestart
    cases hstep with
    | restart _ arpExpired timeExpired oack clock port client client' hturn hrestart =>
      exact ⟨0, inv_requested (netRestart_requested hrestart) port oack⟩
  by_cases hdata : e = .data
  · subst hdata
    cases hstep with
    | data _ buf pkt hcur hbytes =>
      by_cases hold : s.client.packetHandler ≠ .tftp ∨ s.cur = a
      · exact ⟨a, inv_ignored h hcur hold (hzero rfl) hbytes⟩
      · rw [not_or, not_not] at hold
        exact ⟨a + 1, inv_block hsize h hold.1 (h.cur.resolve_left hold.2) hbytes⟩
  · exact ⟨a, inv_step_other h hstep hdata hrestart⟩

theorem step_loadAddr {f : File} {b : Board} {e : Event} {s s' : Sys} {a : ℕ} (h : Inv f s a)
    (hstep : Step f b e s s') : s'.client.loadAddr = s.client.loadAddr := by
  cases hstep with
  | oack _ buf pkt len hcur hop => exact callHandler_loadAddr h.not_ping _ _ _ _ _
  | data _ buf pkt hcur hbytes => exact callHandler_loadAddr h.not_ping _ _ _ _ _
  | advance => rfl
  | other _ ping buf len helse => exact (netReceive_quiet ping len helse h.ourPort h.not_ping).loadAddr
  | turn _ arpExpired timeExpired client hturn =>
    have hq := turnEnd_quiet false arpExpired timeExpired s.client
    rw [hturn] at hq
    exact hq.loadAddr
  | restart _ arpExpired timeExpired oack clock port client client' hturn hrestart =>
    have hq := turnEnd_quiet false arpExpired timeExpired s.client
    rw [hturn] at hq
    exact (netRestart_requested hrestart).loadAddr.trans hq.loadAddr

end Iot7688.Net
