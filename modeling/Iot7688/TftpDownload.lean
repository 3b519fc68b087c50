import Iot7688.TftpTransfer

/-!
Downloads of files of any length, which do what they should unless a block whose
number is a multiple of 65536 comes twice. The run with such a block is built
from its beginning: the answer to the ARP request, one packet and one
acknowledgement for each of the first 65536 blocks, and the block again.
-/
namespace Iot7688.Net

open Lib Relation

/-- Client and server after the request for the file. -/
def Sys.requested (client : NetSt) (port : ℕ) (oack : Bool) : Sys :=
  ⟨client, port, if oack then 0 else 1, client.sent.length⟩

/-- A step that brings no block with number 0 again. -/
def Orderly (f : File) (b : Board) (s s' : Sys) : Prop :=
  ∃ e, Step f b e s s' ∧ (e = .data → ¬RepeatsZero s)

theorem netLoopStart_requested {b : Board} {clock : ℕ} {ready : Bool} {s s' : NetSt}
    (h : netLoopStart .tftp b clock ready s = (true, s')) : Requested s s' := by
  unfold netLoopStart at h
  dsimp only at h
  split at h
  · have hr := netRestart_requested h
    exact ⟨hr.mem, hr.loadAddr, hr.state, hr.block, hr.ourPort, hr.size, hr.netState, hr.handler⟩
  · exact absurd (Prod.mk.inj h).1 (by decide)

theorem orderly_inv {f : File} {b : Board} {s s' : Sys} {a : ℕ} (hsize : f.size < 2 ^ 32)
    (h : Inv f s a) (hrun : ReflTransGen (Orderly f b) s s') : ∃ a', Inv f s' a' := by
  have hkeep : ∀ s t, (∃ a, Inv f s a) → Orderly f b s t → ∃ a, Inv f t a := by
    rintro s t ⟨a, hi⟩ ⟨e, hstep, hzero⟩
    exact inv_step hsize hi hstep hzero
  exact run_preserves hkeep hrun ⟨a, h⟩

theorem orderly_loadAddr {f : File} {b : Board} {s s' : Sys} {a : ℕ} (hsize : f.size < 2 ^ 32)
    (h : Inv f s a) (hrun : ReflTransGen (Orderly f b) s s') :
    s'.client.loadAddr = s.client.loadAddr := by
  induction hrun with
  | refl => rfl
  | tail hrun hlast ih =>
    obtain ⟨_, hi⟩ := orderly_inv hsize h hrun
    obtain ⟨_, hstep, _⟩ := hlast
    exact (step_loadAddr hi hstep).trans ih

/-- At the end of the transfer the whole file lies at the load address. -/
theorem Inv.success {f : File} {s : Sys} {a : ℕ} (h : Inv f s a) (hs : s.client.netState = .success) :
    Stored f s.client f.size ∧ s.client.xferSize = f.size := by
  rcases h.phase with ⟨_, hw⟩ | hr
  · exact absurd hs hw.notDone
  · have ha := hr.done hs
    have hall : min f.size (a * 512) = f.size := by
      rw [ha]
      unfold File.blocks tftpBlockSize
      omega
    have hstored := hr.stored
    have hsize := hr.size
    rw [hall] at hstored hsize
    exact ⟨hstored, hsize⟩

/-- The packet delivered next repeats the block that was received last. -/
def Repeats (s : Sys) : Prop :=
  s.client.packetHandler = .tftp ∧ s.client.tftp.state = .data ∧
    s.client.tftp.lastBlock = s.cur % 2 ^ 16

theorem Inv.repeats {f : File} {s : Sys} {a : ℕ} (h : Inv f s a) (hrep : Repeats s) :
    Receiving f s s.cur := by
  obtain ⟨_, hstate, hlast⟩ := hrep
  rcases h.phase with ⟨_, hw⟩ | hr
  · rcases hw.state with hs | ⟨hs, _⟩
    · rw [hs] at hstate
      exact absurd hstate (by decide)
    · rw [hs] at hstate
      exact absurd hstate (by decide)
  · have hcur : s.cur = a := by
      rcases hr.cur with hc | hc
      · exact hc
      · have hl := hr.lastBlock
        rw [hlast, hc] at hl
        omega
    rw [hcur]
    exact hr

/-- A repeated packet is harmless exactly if its number is not 0. -/
theorem repeat_harmless_iff {f : File} {b : Board} {s s' : Sys} {a : ℕ} (h : Inv f s a)
    (hrep : Repeats s) (hstep : Step f b .data s s') :
    s'.client.mem = s.client.mem ∧
        s'.client.tftp.blockWrapOffset = s.client.tftp.blockWrapOffset ∧
        s'.client.xferSize = s.client.xferSize ↔ s.cur % 2 ^ 16 ≠ 0 := by
  have hr := h.repeats hrep
  have hlast := hr.lastBlock
  have hwrap := hr.wrap
  cases hstep with
  | data _ buf pkt hcur hbytes =>
    rw [callHandler_repeat hrep.1 hr rfl hbytes, countBlock_eq, hlast]
    dsimp only
    constructor
    · rintro ⟨_, hoff, _⟩ hzero
      rw [if_pos hzero, hwrap, tftpBlockSize, tftpSequenceSize] at hoff
      omega
    · intro hzero
      exact ⟨rfl, if_neg hzero, rfl⟩

/-- The globals before the first run of NetLoop. -/
def NetSt.boot : NetSt where
  mem := fun _ => 0
  loadAddr := 0x80100000
  bootFile := []
  noretry := false
  netState := .loop
  xferSize := 0
  ourEther := netEtherNullAddr
  serverEther := netEtherNullAddr
  ourIP := 0
  serverIP := 0
  ourGatewayIP := 0
  ourSubnetMask := 0
  ipId := 0
  packetHandler := .null
  timeHandler := .null
  arpWait :=
    { packetIP := 0
      replyIP := 0
      packetMAC := .null
      txPacket := ⟨[], [], 0, []⟩
      txPacketSize := 0
      tries := 0 }
  pingIP := 0
  pingMac := netEtherNullAddr
  pingSeqNo := 0
  tftpStarted := false
  tftp :=
    { serverPort := 0
      ourPort := 0
      timeoutCount := 0
      block := 0
      lastBlock := 0
      blockWrap := 0
      blockWrapOffset := 0
      state := .idle
      filename := [] }
  sent := []
  rx := ⟨0, false, 0, []⟩

/-- A client 10.10.10.123 and a server 10.10.10.3. -/
def Board.local : Board where
  enetaddr := [0, 0x0c, 0x43, 0x28, 0x80, 1]
  ipAddr := 0x7b0a0a0a#32
  gatewayip := 0
  netmask := 0x00ffffff#32
  serverip := 0x030a0a0a#32

def serverMac : Ether := [2, 0, 0, 0, 0, 1]

/-- The answer of the server to the ARP request. -/
def serverArpReply : Mem := fun i =>
  (Board.local.enetaddr ++ serverMac ++ be16 protArp ++ be16 1 ++ be16 protIp ++ [6, 4] ++ be16 2 ++
    serverMac ++ ipBytes Board.local.serverip ++ Board.local.enetaddr ++
    ipBytes Board.local.ipAddr).getD i 0

def localStart : NetSt := (netLoopStart .tftp Board.local 0 true NetSt.boot).2

theorem localStart_eq : netLoopStart .tftp Board.local 0 true NetSt.boot = (true, localStart) := rfl

theorem Step.data_here (f : File) (b : Board) {s : Sys} (hcur : 0 < s.cur) :
    Step f b .data s { s with
      client := callHandler (dataPacket f s.cur) 0 s.client.tftp.ourPort s.port
        (4 + f.blockLen s.cur) s.client } :=
  Step.data s _ 0 hcur fun i _ => by rw [Nat.zero_add]

/-- If no block with number 0 is delivered again, a transfer that ends well has
brought the file. Of the repeated packets just those with number 0 do harm. -/
theorem download_safe (f : File) (hsize : f.size < 2 ^ 32) (b : Board) (clock port : ℕ)
    (oack : Bool) (s0 client : NetSt) (hstart : netLoopStart .tftp b clock true s0 = (true, client))
    (s : Sys) (hrun : ReflTransGen (Orderly f b) (Sys.requested client port oack) s) :
    (s.client.netState = .success → Stored f s.client f.size ∧ s.client.xferSize = f.size) ∧
      ∀ s', Step f b .data s s' → Repeats s →
        (s'.client.mem = s.client.mem ∧
            s'.client.tftp.blockWrapOffset = s.client.tftp.blockWrapOffset ∧
            s'.client.xferSize = s.client.xferSize ↔ s.cur % 2 ^ 16 ≠ 0) := by
  obtain ⟨_, hinv⟩ := orderly_inv hsize (inv_requested (netLoopStart_requested hstart) port oack) hrun
  exact ⟨hinv.success, fun s' hstep hrep => repeat_harmless_iff hinv hrep hstep⟩

/-- A file of three bytes comes in one packet. -/
def threeBytes : File := ⟨3, fun i => i.toUInt8⟩

theorem threeBytes_run : ∃ s, ReflTransGen (Orderly threeBytes Board.local)
    (Sys.requested localStart 2000 false) s ∧ s.client.netState = .success := by
  have hstep := Step.data_here threeBytes Board.local
    (show 0 < (Sys.requested localStart 2000 false).cur by decide)
  exact ⟨_, ReflTransGen.single ⟨.data, hstep, fun _ h => absurd h.2.1 (by decide)⟩, rfl⟩

theorem download_safe_small : ∃ s : Sys, s.client.netState = .success ∧
    Stored threeBytes s.client 3 ∧ s.client.xferSize = 3 := by
  obtain ⟨s, hrun, hsucc⟩ := threeBytes_run
  exact ⟨s, hsucc, (download_safe threeBytes (by decide) Board.local 0 2000 false NetSt.boot
    localStart localStart_eq s hrun).1 hsucc⟩

/-- The transfer after block k, with the server's address known. -/
structure Linked (f : File) (s : Sys) (k : ℕ) : Prop where
  inv : Inv f s k
  pos : 0 < k
  cur : s.cur = k
  port : s.port = 2000
  handler : s.client.packetHandler = .tftp
  netState : s.client.netState = .loop
  serverIP : s.client.serverIP = Board.local.serverip
  serverEther : s.client.serverEther = serverMac
  ack : ∃ fr ∈ s.client.sent.drop s.mark, fr.IsAck k

theorem acceptBlock_ack (block : ℕ) (buf : Mem) (src len : ℕ) {s : NetSt}
    (hstate : s.tftp.state = .data) (hip : s.serverIP = Board.local.serverip)
    (hether : s.serverEther = serverMac) :
    let s' := acceptBlock block buf src len s
    s'.serverIP = s.serverIP ∧ s'.serverEther = s.serverEther ∧
      ∃ fr, s'.sent = s.sent ++ [fr] ∧ fr.IsAck s.tftp.block := by
  unfold acceptBlock
  dsimp only
  set t := storeBlock ((block + 2 ^ 32 - 1) % 2 ^ 32) buf src len
    { s with tftp := { s.tftp with lastBlock := block }, timeHandler := .tftpTimeout } with ht
  have hip' : t.serverIP = Board.local.serverip := hip
  have hether' : t.serverEther = serverMac := hether
  have hpacket : tftpPacket t.tftp = be16 4 ++ be16 s.tftp.block := by
    rw [tftpPacket, show t.tftp.state = .data from hstate]
    rfl
  have hack : (tftpFrame t).IsAck s.tftp.block := ⟨rfl, (udpFrame_data _ _ _ _ _ _).trans hpacket⟩
  rw [tftpSend_known (by rw [hip']; decide) (by rw [hip']; decide) (by rw [hether']; decide)]
  split
  · exact ⟨rfl, rfl, _, rfl, hack⟩
  · exact ⟨rfl, rfl, _, rfl, hack⟩

theorem blockLen_full {f : File} {k : ℕ} (h : k + 1 < f.blocks) : f.blockLen (k + 1) = 512 := by
  rw [blockLen_succ]
  unfold File.blocks tftpBlockSize at h
  omega

/-- A block that has not been received before is accepted in the state DATA. -/
theorem callHandler_new {f : File} {s : Sys} {k : ℕ} {buf : Mem} {pkt : ℕ}
    (hhandler : s.client.packetHandler = .tftp) (hcur : s.cur = k + 1)
    (hphase : k = 0 ∧ Waiting s ∨ Receiving f s k)
    (hbytes : ∀ i, i < 4 + f.blockLen s.cur → buf (pkt + i) = dataPacket f s.cur i) :
    ∃ src t, t.serverIP = s.client.serverIP ∧ t.serverEther = s.client.serverEther ∧
      t.packetHandler = s.client.packetHandler ∧ t.netState = s.client.netState ∧
      t.sent = s.client.sent ∧ t.tftp.state = .data ∧ t.tftp.block % 2 ^ 16 = s.cur % 2 ^ 16 ∧
      callHandler buf pkt s.client.tftp.ourPort s.port (4 + f.blockLen s.cur) s.client =
        acceptBlock (s.cur % 2 ^ 16) buf src (f.blockLen s.cur) t := by
  rcases hphase with ⟨hk, hw⟩ | hr
  · have hone : s.cur = 1 := by omega
    have hnumber : s.cur % 2 ^ 16 = 1 := by omega
    have heq := callHandler_first hhandler hw hone hbytes
    rw [hnumber]
    refine ⟨pkt + 2 + 2, _, ?_, ?_, ?_, ?_, ?_, ?_, ?_, heq⟩
    · rfl
    · rfl
    · rfl
    · rfl
    · rfl
    · rfl
    · rfl
  · have heq := callHandler_next hhandler hr hcur hbytes
    refine ⟨pkt + 2 + 2, _, ?_, ?_, ?_, ?_, ?_, ?_, ?_, heq⟩
    · rfl
    · rfl
    · rfl
    · rfl
    · rfl
    · rw [countBlock_eq]
      exact hr.state
    · rw [countBlock_eq]
      exact Nat.mod_mod _ _

/-- A full block that has not been received before. -/
theorem linked_data {f : File} (b : Board) {s : Sys} {k : ℕ} (hsize : f.size < 2 ^ 32)
    (hinv : Inv f s k) (hcur : s.cur = k + 1) (hport : s.port = 2000)
    (hhandler : s.client.packetHandler = .tftp) (hnet : s.client.netState = .loop)
    (hip : s.client.serverIP = Board.local.serverip) (hether : s.client.serverEther = serverMac)
    (hmore : k + 1 < f.blocks) : ∃ s', Orderly f b s s' ∧ Linked f s' (k + 1) := by
  have hbytes : ∀ i, i < 4 + f.blockLen s.cur → dataPacket f s.cur (0 + i) = dataPacket f s.cur i :=
    fun i _ => by rw [Nat.zero_add]
  have hpos : 0 < s.cur := by omega
  have hzero : ¬RepeatsZero s := by
    rintro ⟨_, hstate, hlast, hmod⟩
    rcases hinv.phase with ⟨_, hw⟩ | hr
    · rcases hw.state with hs | ⟨hs, _⟩
      · simp [hs] at hstate
      · simp [hs] at hstate
    · have := hr.lastBlock
      omega
  have hlen : ¬f.blockLen s.cur < tftpBlockSize := by
    rw [hcur, blockLen_full hmore]
    decide
  obtain ⟨src, t, hip', hether', hh', hnet', hsent', hstate', hblock', heq⟩ :=
    callHandler_new hhandler hcur hinv.phase hbytes
  have hinv' := inv_block hsize hinv hhandler hcur hbytes
  have hstep := Step.data_here f b hpos
  rw [heq] at hinv' hstep
  obtain ⟨hip2, hether2, fr, hfr, hack⟩ := acceptBlock_ack (s.cur % 2 ^ 16) (dataPacket f s.cur) src
    (f.blockLen s.cur) hstate' (hip'.trans hip) (hether'.trans hether)
  have hacc := acceptBlock_accepted (s.cur % 2 ^ 16) (dataPacket f s.cur) src (f.blockLen s.cur) t
  refine ⟨_, ⟨.data, hstep, fun _ => hzero⟩, hinv', Nat.succ_pos k, hcur, hport, ?_, ?_, ?_, ?_, ?_⟩
  · exact hacc.handler.trans (hh'.trans hhandler)
  · refine hacc.netState.trans ?_
    rw [if_neg hlen, hnet', hnet]
  · exact hip2.trans (hip'.trans hip)
  · exact hether2.trans (hether'.trans hether)
  · refine ⟨fr, ?_, hack.1, hack.2.trans ?_⟩
    · show fr ∈ List.drop s.mark (acceptBlock _ _ _ _ _).sent
      rw [hfr, hsent', List.drop_append_of_le_length hinv.mark_le]
      exact List.mem_append_right _ (List.mem_singleton_self fr)
    · rw [← be16_mod t.tftp.block, hblock', hcur, be16_mod]

theorem Linked.receiving {f : File} {s : Sys} {k : ℕ} (h : Linked f s k) : Receiving f s k :=
  h.inv.phase.resolve_left fun hw => absurd hw.1 (Nat.ne_of_gt h.pos)

/-- The server is the only one that answers the ARP request. -/
theorem serverArpReply_elsewhere (port : ℕ) : Elsewhere serverArpReply port :=
  ⟨fun h => absurd h (by decide), fun h => absurd h (by decide)⟩

theorem Linked.next {f : File} (b : Board) {s : Sys} {k : ℕ} (hsize : f.size < 2 ^ 32)
    (h : Linked f s k) (hmore : k + 1 < f.blocks) :
    ∃ s', ReflTransGen (Orderly f b) s s' ∧ Linked f s' (k + 1) := by
  obtain ⟨fr, hfr, hack⟩ := h.ack
  have hcur := h.cur
  have hleft : s.cur < f.blocks := by omega
  have hadv : Step f b .advance s _ := Step.advance s fr hfr (hcur ▸ hack) hleft
  obtain ⟨s', hstep, hlinked⟩ := linked_data b hsize (inv_advance h.inv hfr (hcur ▸ hack) hleft)
    (congrArg Nat.succ hcur) h.port h.handler h.netState h.serverIP h.serverEther hmore
  exact ⟨s', (ReflTransGen.single ⟨.advance, hadv, fun h => by simp at h⟩).tail hstep, hlinked⟩

/-- Without losses every block but the last is reached. -/
theorem linked_run {f : File} (hsize : f.size < 2 ^ 32) {k : ℕ} (hmore : k + 1 < f.blocks) :
    ∃ s, ReflTransGen (Orderly f Board.local) (Sys.requested localStart 2000 false) s ∧
      Linked f s (k + 1) := by
  induction k with
  | zero =>
    have hreq := netLoopStart_requested localStart_eq
    have hinv : Inv f (Sys.requested localStart 2000 false) 0 := inv_requested hreq 2000 false
    have harp : Step f Board.local .other (Sys.requested localStart 2000 false) _ :=
      Step.other _ false serverArpReply 42 (serverArpReply_elsewhere _)
    have hinv' := inv_step_other hinv harp (by decide) (by decide)
    obtain ⟨s', hstep, hlinked⟩ :=
      linked_data Board.local hsize hinv' rfl rfl rfl rfl rfl rfl hmore
    exact ⟨s', (ReflTransGen.single ⟨.other, harp, by simp⟩).tail hstep, hlinked⟩
  | succ k ih =>
    obtain ⟨s, hrun, hlinked⟩ := ih (by omega)
    obtain ⟨s', hrun', hlinked'⟩ := hlinked.next Board.local hsize hmore
    exact ⟨s', hrun.trans hrun', hlinked'⟩

/-- A file of 65536 full blocks, the last block is empty. -/
def zeros : File := ⟨2 ^ 25, fun _ => 0⟩

/-- The empty last block, received in a state with a wrong wrap offset. -/
theorem last_block_misplaced (s : Sys) (hcur : s.cur = 65537)
    (hhandler : s.client.packetHandler = .tftp) (hstate : s.client.tftp.state = .data)
    (hport : s.client.tftp.serverPort = s.port) (hlast : s.client.tftp.lastBlock = 0)
    (hwrap : s.client.tftp.blockWrapOffset = 2 ^ 26) (hxfer : s.client.xferSize = 2 ^ 25) :
    ∃ s', Step zeros Board.local .data s s' ∧ s'.client.netState = .success ∧
      s'.client.xferSize = 2 ^ 26 := by
  have hbytes : ∀ i, i < 4 + zeros.blockLen s.cur →
      dataPacket zeros s.cur (0 + i) = dataPacket zeros s.cur i := fun i _ => by rw [Nat.zero_add]
  obtain ⟨hop, hnumber⟩ := dataPacket_head hbytes
  have hone : readU16 (dataPacket zeros s.cur) (0 + 2) = 1 := by
    rw [hnumber]
    omega
  have hlen : zeros.blockLen s.cur = 0 := by
    rw [hcur]
    decide
  have hnew : readU16 (dataPacket zeros s.cur) (0 + 2) ≠
      (s.client.touch (0 + 2)).tftp.lastBlock := by
    rw [hone]
    show 1 ≠ s.client.tftp.lastBlock
    omega
  have hdata : (s.client.touch (0 + 2)).tftp.state = .data := hstate
  have heq := callHandler_data zeros hhandler (Or.inr hport) hop
  rw [tftpData_next (not_first hdata) hnew, hone] at heq
  have hstep := Step.data_here zeros Board.local (show 0 < s.cur by omega)
  rw [heq] at hstep
  have hacc := acceptBlock_accepted 1 (dataPacket zeros s.cur) (0 + 2 + 2) (zeros.blockLen s.cur)
    { (s.client.touch (0 + 2)).touch (0 + 2 + 2) with tftp := countBlock 1 s.client.tftp }
  refine ⟨_, hstep, ?_, ?_⟩
  · refine hacc.netState.trans (if_pos ?_)
    rw [hlen]
    decide
  · have hoff : storeOffset 1 (countBlock 1 s.client.tftp) = 2 ^ 26 := by
      rw [storeOffset, countBlock_eq, if_neg (by decide), hwrap]
      rfl
    refine hacc.xferSize.trans ?_
    rw [hlen]
    show max s.client.xferSize ((storeOffset 1 (countBlock 1 s.client.tftp) + 0) % 2 ^ 32) = _
    rw [hoff, hxfer]
    rfl

/-- Block 65536 again moves the wrap offset. -/
theorem zero_repeated {s : Sys} (h : Linked zeros s 65536) :
    ∃ s', Step zeros Board.local .data s s' ∧ s'.cur = 65536 ∧
      (∃ fr ∈ s'.client.sent.drop s'.mark, fr.IsAck 65536) ∧ s'.client.packetHandler = .tftp ∧
      s'.client.tftp.state = .data ∧ s'.client.tftp.serverPort = s'.port ∧
      s'.client.tftp.lastBlock = 0 ∧ s'.client.tftp.blockWrapOffset = 2 ^ 26 ∧
      s'.client.xferSize = 2 ^ 25 := by
  have hcur := h.cur
  have hr : Receiving zeros s s.cur := hcur.symm ▸ h.receiving
  have hbytes : ∀ i, i < 4 + zeros.blockLen s.cur →
      dataPacket zeros s.cur (0 + i) = dataPacket zeros s.cur i := fun i _ => by rw [Nat.zero_add]
  have hlast : s.client.tftp.lastBlock = 0 := by
    rw [hr.lastBlock]
    omega
  have hstep := Step.data_here zeros Board.local (show 0 < s.cur by omega)
  have hcount : (countBlock 0 s.client.tftp).blockWrapOffset = 2 ^ 26 := by
    rw [countBlock_eq, hr.wrap, hcur]
    rfl
  have hsame : (countBlock 0 s.client.tftp).state = .data ∧
      (countBlock 0 s.client.tftp).serverPort = s.port ∧
      (countBlock 0 s.client.tftp).lastBlock = 0 := by
    rw [countBlock_eq]
    exact ⟨hr.state, hr.port, hlast⟩
  rw [callHandler_repeat h.handler hr rfl hbytes, hlast] at hstep
  refine ⟨_, hstep, hcur, h.ack, h.handler, hsame.1, hsame.2.1, hsame.2.2, hcount, ?_⟩
  show s.client.xferSize = 2 ^ 25
  rw [hr.size, hcur]
  decide

/-- Block 65536 comes twice: the last block goes 32 MiB too far, and so does the
size of the file. -/
theorem block_65536_twice : netLoopStart .tftp Board.local 0 true NetSt.boot = (true, localStart) ∧
    ∃ s, ReflTransGen (fun s s' => ∃ e, Step zeros Board.local e s s')
        (Sys.requested localStart 2000 false) s ∧
      s.client.netState = .success ∧ s.client.xferSize ≠ zeros.size := by
  refine ⟨rfl, ?_⟩
  obtain ⟨s, hrun, h⟩ := linked_run (show zeros.size < 2 ^ 32 by decide)
    (show 65535 + 1 < zeros.blocks by decide)
  obtain ⟨s1, hagain, hcur, ⟨fr, hfr, hack⟩, hhandler, hstate, hport, hlast, hwrap, hxfer⟩ :=
    zero_repeated h
  have hmore : s1.cur < zeros.blocks := by
    rw [hcur]
    decide
  have hadv : Step zeros Board.local .advance s1 _ := Step.advance s1 fr hfr (hcur ▸ hack) hmore
  have hcur' : s1.cur + 1 = 65537 := congrArg Nat.succ hcur
  obtain ⟨s', hdata, hsucc, hsize⟩ :=
    last_block_misplaced { s1 with cur := s1.cur + 1, mark := s1.client.sent.length } hcur' hhandler
      hstate hport hlast hwrap hxfer
  have hall : ReflTransGen (fun s s' => ∃ e, Step zeros Board.local e s s')
      (Sys.requested localStart 2000 false) s :=
    ReflTransGen.mono (fun _ _ ⟨e, hstep, _⟩ => ⟨e, hstep⟩) _ _ hrun
  refine ⟨s', ((hall.tail ⟨_, hagain⟩).tail ⟨_, hadv⟩).tail ⟨_, hdata⟩, hsucc, ?_⟩
  rw [hsize]
  decide

end Iot7688.Net
