import Iot7688.TftpDownload

/-!
Received frames and their bounds. Of the four lengths of a frame (its own, the
802.3 header's, the IP and the UDP length) NetReceive compares only the IP length
with the rest of the frame. The condition below says which frames are handled
within their bounds all the same.
-/
namespace Iot7688.Net

open Lib

/-- A TFTP transfer runs, or waits to be started again. -/
structure InTransfer (s : NetSt) : Prop where
  handler : s.packetHandler = .tftp ∨ s.packetHandler = .startAgain
  ourPort : 0 < s.tftp.ourPort

theorem InTransfer.not_ping {s : NetSt} (h : InTransfer s) : s.packetHandler ≠ .ping := by
  rcases h.handler with hh | hh
  · rw [hh]
    decide
  · rw [hh]
    decide

/-- Memory and transfer state are the same. -/
structure SameTransfer (s s' : NetSt) : Prop where
  mem : s'.mem = s.mem
  tftp : s'.tftp = s.tftp
  xferSize : s'.xferSize = s.xferSize
  netState : s'.netState = s.netState
  packetHandler : s'.packetHandler = s.packetHandler
  timeHandler : s'.timeHandler = s.timeHandler

/-- Where the IP header of a frame is, by its type or by its 802.3 header. -/
def ipOffset (buf : Mem) : Option ℕ :=
  if readU16 buf 12 < 1514 then
    if readU16 buf 20 = protIp then some e802HdrSize else none
  else if readU16 buf 12 = protIp then some etherHdrSize
  else none

def ipLen (buf : Mem) (ip : ℕ) : ℕ := readU16 buf (ip + 2)
def udpLen (buf : Mem) (ip : ℕ) : ℕ := readU16 buf (ip + 24)

/-- The UDP length covers its header and fits in the IP length. -/
def UdpLengthOk (buf : Mem) (ip : ℕ) : Prop :=
  8 ≤ udpLen buf ip ∧ udpLen buf ip + ipHdrSizeNoUdp ≤ ipLen buf ip

/-- The bytes behind the TFTP header of a DATA packet that are in the IP packet and
in the frame. -/
def dataPresent (buf : Mem) (len : ℕ) : ℕ :=
  match ipOffset buf with
  | some ip => min len (ip + ipLen buf ip) - (ip + ipHdrSize + 4)
  | none => 0

/-- What is wanted of every frame. -/
structure WithinBounds (ping : Bool) (buf : Mem) (len : ℕ) (s : NetSt) : Prop where
  reads : (netReceive ping buf len s).rx.overrun = false
  udp : ∀ proto ∈ (netReceive ping buf len s).rx.udpProtos, proto = 17
  copied : (netReceive ping buf len s).rx.copied ≤ dataPresent buf len
  badLength : ∀ ip, ipOffset buf = some ip → ip + ipHdrSize ≤ len → ¬UdpLengthOk buf ip →
    SameTransfer s (netReceive ping buf len s)

/-- The tests of NetReceive that let an IP packet through to the current handler. -/
def UdpReached (ping : Bool) (buf : Mem) (ip len : ℕ) (s : NetSt) : Prop :=
  ip + ipHdrSize ≤ len ∧ ip + ipLen buf ip ≤ len ∧ buf ip &&& 0xf0 = 0x40 ∧
    readU16 buf (ip + 6) &&& 0x1fff = 0 ∧
    netCksumOk ((List.range ipHdrSizeNoUdp).map fun i => buf (ip + i)) = true ∧
    ¬(s.ourIP ≠ 0 ∧ readIP buf (ip + 16) ≠ s.ourIP ∧ readIP buf (ip + 16) ≠ 0xFFFFFFFF#32) ∧
    (ping = true → buf (ip + 9) = 17 ∨
      buf (ip + 9) = 1 ∧ (buf (ip + 20) = 5 ∧ buf (ip + 21) = 1 ∨ buf (ip + 20) = 0))

/-- A repeated DATA packet that changes nothing. -/
def RepeatsBlock (number : ℕ) (t : Tftp) : Prop :=
  t.state ≠ .rrq ∧ t.state ≠ .oack ∧ number = t.lastBlock ∧ number = t.block ∧ number ≠ 0

/-- The datagrams that TftpHandler looks at are all right in these cases. -/
def DatagramOk (buf : Mem) (ip len : ℕ) (s : NetSt) : Prop :=
  let src := readU16 buf (ip + 20)
  let ulen := (udpLen buf ip + 2 ^ 32 - 8) % 2 ^ 32
  let op := readU16 buf (ip + 28)
  s.packetHandler = .tftp → readU16 buf (ip + 22) = s.tftp.ourPort →
    (s.tftp.state = .rrq ∨ src = s.tftp.serverPort) → 2 ≤ ulen →
    ip + 30 ≤ len ∧
      (op = 6 → UdpLengthOk buf ip ∨ s.tftp.state = .oack ∧ s.tftp.serverPort = src) ∧
      (op = 3 → 4 ≤ ulen → ip + 32 ≤ len ∧
        (UdpLengthOk buf ip ∨ RepeatsBlock (readU16 buf (ip + 30)) s.tftp)) ∧
      (op = 5 → ip + 32 ≤ len ∧ (∃ i, ip + 32 ≤ i ∧ i < len ∧ buf i = 0) ∧
        (UdpLengthOk buf ip ∨ s.noretry = true ∧ s.netState = .fail))

/-- The frames that are handled within their bounds. -/
def FrameOk (ping : Bool) (buf : Mem) (len : ℕ) (s : NetSt) : Prop :=
  etherHdrSize ≤ len → (readU16 buf 12 < 1514 → e802HdrSize ≤ len) ∧
    ∀ ip, ipOffset buf = some ip → UdpReached ping buf ip len s →
      buf (ip + 9) = 17 ∧ DatagramOk buf ip len s

theorem SameTransfer.refl (s : NetSt) : SameTransfer s s := ⟨rfl, rfl, rfl, rfl, rfl, rfl⟩

theorem touch_within {s : NetSt} {n : ℕ} (h : n ≤ s.rx.limit) : s.touch n = s := by
  have hno : decide (s.rx.limit < n) = false := decide_eq_false (by omega)
  rw [NetSt.touch, hno, Bool.or_false]

theorem touch_beyond {s : NetSt} {n : ℕ} (h : s.rx.limit < n) : (s.touch n).rx.overrun = true := by
  rw [NetSt.touch]
  simp [h]

/-- A read behind the frame is not forgotten, and the handler is not called again. -/
structure Later (s s' : NetSt) : Prop where
  overrun : s.rx.overrun = true → s'.rx.overrun = true
  udpProtos : s'.rx.udpProtos = s.rx.udpProtos

theorem Later.refl (s : NetSt) : Later s s := ⟨id, rfl⟩

theorem Later.trans {s s1 s2 : NetSt} (h : Later s s1) (h' : Later s1 s2) : Later s s2 :=
  ⟨fun ho => h'.overrun (h.overrun ho), h'.udpProtos.trans h.udpProtos⟩

theorem Later.ite {s a b : NetSt} {p : Prop} [Decidable p] (ha : Later s a) (hb : Later s b) :
    Later s (if p then a else b) := by
  split
  · exact ha
  · exact hb

theorem Later.of_rx {s s' : NetSt} (h : s'.rx = s.rx) : Later s s' :=
  ⟨fun ho => by rw [h]; exact ho, by rw [h]⟩

theorem touch_later (s : NetSt) (n : ℕ) : Later s (s.touch n) :=
  ⟨fun h => by rw [NetSt.touch, h]; rfl, rfl⟩

theorem touchString_later (s : NetSt) (buf : Mem) (p : ℕ) : Later s (s.touchString buf p) :=
  ⟨fun h => by rw [NetSt.touchString, h]; rfl, rfl⟩

@[simp] theorem tftpSend_rx (s : NetSt) : (tftpSend s).rx = s.rx := by
  obtain ⟨w, n, fs, heq, _⟩ :=
    netSendUDPPacket_eq s.serverIP s.tftp.serverPort s.tftp.ourPort (tftpPacket s.tftp) s
  rw [tftpSend, heq]

theorem netStartAgain_rx (s : NetSt) : (netStartAgain s).rx = s.rx := by
  unfold netStartAgain
  split <;> rfl

theorem arpReply_rx (buf : Mem) (arp : ℕ) (s : NetSt) : (arpReply buf arp s).rx = s.rx := by
  have hsave : (saveMac (readEther buf (arp + 8)) s).rx = s.rx := by
    unfold saveMac
    split <;> rfl
  unfold arpReply
  dsimp only
  split
  · rfl
  · split
    · split
      · rw [tftpSend_rx]
        exact hsave
      · exact hsave
    · rfl

theorem acceptBlock_later (block : ℕ) (buf : Mem) (src len : ℕ) (s : NetSt) :
    Later s (acceptBlock block buf src len s) := by
  unfold acceptBlock
  dsimp only
  have hstore : Later s (tftpSend (storeBlock ((block + 2 ^ 32 - 1) % 2 ^ 32) buf src len
      { s with tftp := { s.tftp with lastBlock := block }, timeHandler := .tftpTimeout })) := by
    have htouch := touch_later s (if len = 0 then 0 else src + len)
    exact ⟨fun h => by rw [tftpSend_rx]; exact htouch.overrun h,
      by rw [tftpSend_rx]; exact htouch.udpProtos⟩
  split
  · exact hstore.trans (Later.of_rx rfl)
  · exact hstore

/-- The number of the block is read first. -/
theorem tftpData_later (buf : Mem) (pkt src len : ℕ) (s : NetSt) :
    Later (s.touch (pkt + 2)) (tftpData buf pkt src len s) := by
  have ht : ∀ t, Later (s.touch (pkt + 2)) { s.touch (pkt + 2) with tftp := t } :=
    fun t => Later.of_rx rfl
  by_cases hfirst : s.tftp.state = .rrq ∨ s.tftp.state = .oack
  · by_cases hone : readU16 buf pkt = 1
    · rw [tftpData_first hfirst hone]
      exact (ht _).trans (acceptBlock_later _ _ _ _ _)
    · rw [tftpData_again hfirst hone]
      exact (ht _).trans (Later.of_rx (netStartAgain_rx _))
  · by_cases hlast : readU16 buf pkt = s.tftp.lastBlock
    · rw [tftpData_repeat hfirst hlast]
      exact ht _
    · rw [tftpData_next hfirst hlast]
      exact (ht _).trans (acceptBlock_later _ _ _ _ _)

/-- The cases of the handler behind its tests. -/
def tftpOp (buf : Mem) (pkt src len : ℕ) (s : NetSt) : NetSt :=
  if readU16 buf pkt = 6 then
    tftpSend { s with tftp := { s.tftp with state := .oack, serverPort := src } }
  else if readU16 buf pkt = 3 then
    if len - 2 < 2 then s else tftpData buf (pkt + 2) src (len - 2 - 2) s
  else if readU16 buf pkt = 5 then
    netStartAgain ((s.touch (pkt + 2 + 2)).touchString buf (pkt + 2 + 2))
  else s

theorem tftpHandler_eq (buf : Mem) (pkt dest src len : ℕ) (s : NetSt) :
    tftpHandler buf pkt dest src len s =
      if dest = s.tftp.ourPort ∧ (s.tftp.state = .rrq ∨ src = s.tftp.serverPort) ∧ 2 ≤ len then
        tftpOp buf pkt src len (s.touch (pkt + 2))
      else s := by
  unfold tftpHandler
  by_cases hdest : dest = s.tftp.ourPort
  · by_cases hsrc : s.tftp.state = .rrq ∨ src = s.tftp.serverPort
    · have hsrc' : ¬(s.tftp.state ≠ .rrq ∧ src ≠ s.tftp.serverPort) := fun h => hsrc.elim h.1 h.2
      rw [if_neg (not_not.mpr hdest), if_neg hsrc']
      by_cases hlen : len < 2
      · rw [if_pos hlen, if_neg (fun h => absurd h.2.2 (by omega))]
      · have hall : dest = s.tftp.ourPort ∧ (s.tftp.state = .rrq ∨ src = s.tftp.serverPort) ∧
            2 ≤ len := ⟨hdest, hsrc, by omega⟩
        rw [if_neg hlen, if_pos hall]
        rfl
    · rw [not_or] at hsrc
      rw [if_neg (not_not.mpr hdest), if_pos hsrc, if_neg (fun h => h.2.1.elim hsrc.1 hsrc.2)]
  · rw [if_pos hdest, if_neg (fun h => hdest h.1)]

theorem tftpOp_later (buf : Mem) (pkt src len : ℕ) (s : NetSt) :
    Later s (tftpOp buf pkt src len s) := by
  unfold tftpOp
  split
  · exact Later.of_rx (tftpSend_rx _)
  split
  · exact (Later.refl s).ite ((touch_later s _).trans (tftpData_later _ _ _ _ _))
  split
  · exact ((touch_later _ _).trans (touchString_later _ buf _)).trans
      (Later.of_rx (netStartAgain_rx _))
  · exact Later.refl s

theorem tftpHandler_later (buf : Mem) (pkt dest src len : ℕ) (s : NetSt) :
    Later s (tftpHandler buf pkt dest src len s) := by
  rw [tftpHandler_eq]
  exact ((touch_later s _).trans (tftpOp_later _ _ _ _ _)).ite (Later.refl s)

theorem callHandler_later (buf : Mem) (pkt dest src len : ℕ) (s : NetSt) :
    Later s (callHandler buf pkt dest src len s) := by
  unfold callHandler
  split
  · exact tftpHandler_later buf pkt dest src len s
  · unfold pingHandler
    dsimp only
    exact (touch_later s _).ite ((touch_later s _).trans (Later.of_rx rfl))
  · exact Later.refl s
  · exact Later.refl s

/-- What is wanted of a call of the handler; ok tells whether the lengths are. -/
structure Handled (present : ℕ) (ok : Prop) (s s' : NetSt) : Prop where
  reads : s'.rx.overrun = false
  copied : s'.rx.copied ≤ present
  bad : ¬ok → SameTransfer s s'

variable {present : ℕ} {ok : Prop} {s : NetSt}

theorem handled_of_same {s' : NetSt} (hreads : s.rx.overrun = false) (hcopied : s.rx.copied = 0)
    (hrx : s'.rx = s.rx) (hsame : ¬ok → SameTransfer s s') : Handled present ok s s' :=
  ⟨by rw [hrx]; exact hreads, by rw [hrx, hcopied]; exact Nat.zero_le _, hsame⟩

/-- The record of what is read is no part of the transfer. -/
theorem handled_record_iff {rx : Rx} {s' : NetSt} :
    Handled present ok { s with rx := rx } s' ↔ Handled present ok s s' := by
  constructor
  · rintro ⟨hreads, hcopied, hbad⟩
    refine ⟨hreads, hcopied, fun hok => ?_⟩
    obtain ⟨hmem, htftp, hsize, hnet, hhandler, htime⟩ := hbad hok
    exact ⟨hmem, htftp, hsize, hnet, hhandler, htime⟩
  · rintro ⟨hreads, hcopied, hbad⟩
    refine ⟨hreads, hcopied, fun hok => ?_⟩
    obtain ⟨hmem, htftp, hsize, hnet, hhandler, htime⟩ := hbad hok
    exact ⟨hmem, htftp, hsize, hnet, hhandler, htime⟩

theorem oack_handled_iff (src : ℕ) (hreads : s.rx.overrun = false) (hcopied : s.rx.copied = 0) :
    Handled present ok s (tftpSend { s with tftp := { s.tftp with state := .oack, serverPort := src } })
      ↔ ok ∨ s.tftp.state = .oack ∧ s.tftp.serverPort = src := by
  obtain ⟨w, n, fs, heq, _⟩ := netSendUDPPacket_eq s.serverIP src s.tftp.ourPort
    (tftpPacket { s.tftp with state := .oack, serverPort := src })
    { s with tftp := { s.tftp with state := .oack, serverPort := src } }
  have hsend : tftpSend { s with tftp := { s.tftp with state := .oack, serverPort := src } } = _ := heq
  rw [hsend]
  constructor
  · intro h
    by_cases hok : ok
    · exact Or.inl hok
    · have htftp := (h.bad hok).tftp
      exact Or.inr ⟨(congrArg Tftp.state htftp).symm, (congrArg Tftp.serverPort htftp).symm⟩
  · intro h
    refine handled_of_same hreads hcopied rfl fun hok => ?_
    obtain ⟨hstate, hport⟩ := h.resolve_left hok
    refine ⟨rfl, ?_, rfl, rfl, rfl, rfl⟩
    show { s.tftp with state := .oack, serverPort := src } = s.tftp
    rw [← hstate, ← hport]

/-- Giving up the transfer changes its state unless it has failed already. -/
theorem startAgain_handled_iff (hreads : s.rx.overrun = false) (hcopied : s.rx.copied = 0)
    (hhandler : s.packetHandler = .tftp) :
    Handled present ok s (netStartAgain s) ↔ ok ∨ s.noretry = true ∧ s.netState = .fail := by
  constructor
  · intro h
    by_cases hok : ok
    · exact Or.inl hok
    · have hsame := h.bad hok
      by_cases hretry : s.noretry = true
      · have hstate := hsame.netState
        rw [netStartAgain, if_pos hretry] at hstate
        exact Or.inr ⟨hretry, hstate.symm⟩
      · have hagain := hsame.packetHandler
        rw [netStartAgain, if_neg hretry, hhandler] at hagain
        exact absurd hagain (by simp)
  · intro h
    refine handled_of_same hreads hcopied (netStartAgain_rx s) fun hok => ?_
    obtain ⟨hretry, hstate⟩ := h.resolve_left hok
    rw [netStartAgain, if_pos hretry, ← hstate]
    exact SameTransfer.refl s

theorem acceptBlock_rx {block : ℕ} {buf : Mem} {src len : ℕ} (hfit : src + len ≤ s.rx.limit) :
    (acceptBlock block buf src len s).rx = { s.rx with copied := s.rx.copied + len } := by
  have htouch : ∀ t : NetSt, t.rx = s.rx → t.touch (if len = 0 then 0 else src + len) = t := by
    intro t ht
    refine touch_within ?_
    rw [ht]
    split
    · exact Nat.zero_le _
    · exact hfit
  unfold acceptBlock
  dsimp only
  split
  · show (tftpSend _).rx = _
    rw [tftpSend_rx, storeBlock, htouch]
    rfl
  · rw [tftpSend_rx, storeBlock, htouch]
    rfl

/-- An accepted block changes the transfer state, so its length has to be right. -/
theorem accept_handled_iff {block : ℕ} {buf : Mem} {src len : ℕ} {t : Tftp}
    (hreads : s.rx.overrun = false) (hcopied : s.rx.copied = 0)
    (hfit : ok → src + len ≤ s.rx.limit ∧ len ≤ present)
    (hnew : { t with lastBlock := block } ≠ s.tftp) :
    Handled present ok s (acceptBlock block buf src len { s with tftp := t }) ↔ ok := by
  constructor
  · intro h
    by_contra hok
    have htftp := (h.bad hok).tftp
    rw [(acceptBlock_accepted block buf src len { s with tftp := t }).tftp] at htftp
    exact hnew htftp
  · intro hok
    obtain ⟨hlimit, hpresent⟩ := hfit hok
    have hrx : (acceptBlock block buf src len { s with tftp := t }).rx = _ := acceptBlock_rx hlimit
    refine ⟨?_, ?_, fun h => absurd hok h⟩
    · rw [hrx]
      exact hreads
    · rw [hrx]
      show s.rx.copied + len ≤ present
      omega

theorem countBlock_same_iff {block : ℕ} {t : Tftp} :
    countBlock block t = t ↔ block = t.block ∧ block ≠ 0 := by
  constructor
  · intro h
    have hblock := congrArg Tftp.block h
    have hwrap := congrArg Tftp.blockWrapOffset h
    rw [countBlock_eq] at hblock hwrap
    refine ⟨hblock, fun hzero => ?_⟩
    dsimp only at hwrap
    rw [if_pos hzero, tftpBlockSize, tftpSequenceSize] at hwrap
    omega
  · rintro ⟨hblock, hzero⟩
    exact countBlock_same hblock.symm hzero

theorem repeat_handled_iff {block : ℕ} (hreads : s.rx.overrun = false) (hcopied : s.rx.copied = 0)
    (hstate : ¬(s.tftp.state = .rrq ∨ s.tftp.state = .oack)) (hlast : block = s.tftp.lastBlock) :
    Handled present ok s { s with tftp := countBlock block s.tftp } ↔
      ok ∨ RepeatsBlock block s.tftp := by
  rw [not_or] at hstate
  constructor
  · intro h
    by_cases hok : ok
    · exact Or.inl hok
    · obtain ⟨hblock, hzero⟩ := countBlock_same_iff.mp (h.bad hok).tftp
      exact Or.inr ⟨hstate.1, hstate.2, hlast, hblock, hzero⟩
  · intro h
    refine handled_of_same hreads hcopied rfl fun hok => ?_
    obtain ⟨_, _, _, hblock, hzero⟩ := h.resolve_left hok
    exact ⟨rfl, countBlock_same_iff.mpr ⟨hblock, hzero⟩, rfl, rfl, rfl, rfl⟩

/-- The DATA case, with the number of the block in the frame. -/
theorem tftpData_handled_iff {buf : Mem} {pkt src len : ℕ} (hreads : s.rx.overrun = false)
    (hcopied : s.rx.copied = 0) (hpkt : pkt + 2 ≤ s.rx.limit)
    (hfit : ok → pkt + 2 + len ≤ s.rx.limit ∧ len ≤ present) :
    Handled present ok s (tftpData buf pkt src len s) ↔
      ok ∨ RepeatsBlock (readU16 buf pkt) s.tftp := by
  have htouch := touch_within hpkt
  by_cases hfirst : s.tftp.state = .rrq ∨ s.tftp.state = .oack
  · have hno : ¬RepeatsBlock (readU16 buf pkt) s.tftp := fun h => hfirst.elim h.1 h.2.1
    have hdata : ∀ t : Tftp, t.state = .data → t ≠ s.tftp := by
      intro t ht heq
      rw [heq] at ht
      exact not_first ht hfirst
    by_cases hone : readU16 buf pkt = 1
    · rw [tftpData_first hfirst hone, htouch, accept_handled_iff hreads hcopied hfit (hdata _ rfl)]
      exact ⟨Or.inl, fun h => h.resolve_right hno⟩
    · rw [tftpData_again hfirst hone, htouch]
      constructor
      · intro h
        by_contra hor
        have htftp := (h.bad fun hok => hor (Or.inl hok)).tftp
        unfold netStartAgain at htftp
        split at htftp
        · exact hdata _ rfl htftp
        · exact hdata _ rfl htftp
      · intro h
        exact handled_of_same hreads hcopied (netStartAgain_rx _)
          fun hok => absurd (h.resolve_right hno) hok
  · by_cases hlast : readU16 buf pkt = s.tftp.lastBlock
    · rw [tftpData_repeat hfirst hlast, htouch, ← hlast]
      exact repeat_handled_iff hreads hcopied hfirst hlast
    · have hno : ¬RepeatsBlock (readU16 buf pkt) s.tftp := fun h => hlast h.2.2.1
      have hnew : { countBlock (readU16 buf pkt) s.tftp with lastBlock := readU16 buf pkt } ≠
          s.tftp := fun heq => hlast (congrArg Tftp.lastBlock heq)
      rw [tftpData_next hfirst hlast, htouch, accept_handled_iff hreads hcopied hfit hnew]
      exact ⟨Or.inl, fun h => h.resolve_right hno⟩

theorem touchString_overrun_iff {buf : Mem} {p : ℕ} (hreads : s.rx.overrun = false)
    (hp : p ≤ s.rx.limit) : (s.touchString buf p).rx.overrun = false ↔
      ∃ i, p ≤ i ∧ i < s.rx.limit ∧ buf i = 0 := by
  have hall : (s.touchString buf p).rx.overrun =
      (List.range (s.rx.limit - p)).all fun i => buf (p + i) != 0 := by
    rw [NetSt.touchString, hreads, Bool.false_or]
  rw [hall, List.all_eq_false]
  constructor
  · rintro ⟨i, hi, hzero⟩
    rw [List.mem_range] at hi
    exact ⟨p + i, by omega, by omega, by simpa using hzero⟩
  · rintro ⟨i, hle, hlt, hzero⟩
    refine ⟨i - p, List.mem_range.mpr (by omega), ?_⟩
    rw [Nat.add_sub_cancel' hle]
    simp [hzero]

theorem touchString_within {buf : Mem} {p : ℕ}
    (h : (s.touchString buf p).rx.overrun = s.rx.overrun) : s.touchString buf p = s := by
  unfold NetSt.touchString at *
  dsimp only at h
  rw [h]

/-- The ERROR case, with its code and its message in the frame. -/
theorem error_handled_iff {buf : Mem} {pkt : ℕ} (hreads : s.rx.overrun = false)
    (hcopied : s.rx.copied = 0) (hhandler : s.packetHandler = .tftp) :
    Handled present ok s (netStartAgain ((s.touch (pkt + 4)).touchString buf (pkt + 4))) ↔
      pkt + 4 ≤ s.rx.limit ∧ (∃ i, pkt + 4 ≤ i ∧ i < s.rx.limit ∧ buf i = 0) ∧
        (ok ∨ s.noretry = true ∧ s.netState = .fail) := by
  have hlater := (touchString_later (s.touch (pkt + 4)) buf (pkt + 4)).trans
    (Later.of_rx (netStartAgain_rx _))
  by_cases hpkt : pkt + 4 ≤ s.rx.limit
  · have htouch := touch_within hpkt
    have hstring : (s.touchString buf (pkt + 4)).rx.overrun = false ↔ _ :=
      touchString_overrun_iff hreads hpkt
    by_cases hnul : ∃ i, pkt + 4 ≤ i ∧ i < s.rx.limit ∧ buf i = 0
    · have hsame := touchString_within ((hstring.mpr hnul).trans hreads.symm)
      rw [htouch, hsame, startAgain_handled_iff hreads hcopied hhandler]
      exact ⟨fun h => ⟨hpkt, hnul, h⟩, fun h => h.2.2⟩
    · constructor
      · intro h
        have hread := h.reads
        rw [netStartAgain_rx, htouch] at hread
        exact absurd (hstring.mp hread) hnul
      · exact fun h => absurd h.2.1 hnul
  · constructor
    · intro h
      have hover := hlater.overrun (touch_beyond (by omega))
      rw [h.reads] at hover
      exact absurd hover (by decide)
    · exact fun h => absurd h.1 hpkt

theorem tftpOp_handled_iff {buf : Mem} {pkt src len : ℕ} (hreads : s.rx.overrun = false)
    (hcopied : s.rx.copied = 0) (hhandler : s.packetHandler = .tftp)
    (hfit : ok → pkt + len ≤ s.rx.limit ∧ len - 4 ≤ present) :
    Handled present ok s (tftpOp buf pkt src len s) ↔
      (readU16 buf pkt = 6 → ok ∨ s.tftp.state = .oack ∧ s.tftp.serverPort = src) ∧
        (readU16 buf pkt = 3 → 4 ≤ len → pkt + 4 ≤ s.rx.limit ∧
          (ok ∨ RepeatsBlock (readU16 buf (pkt + 2)) s.tftp)) ∧
        (readU16 buf pkt = 5 → pkt + 4 ≤ s.rx.limit ∧
          (∃ i, pkt + 4 ≤ i ∧ i < s.rx.limit ∧ buf i = 0) ∧
          (ok ∨ s.noretry = true ∧ s.netState = .fail)) := by
  have hself : Handled present ok s s :=
    handled_of_same hreads hcopied rfl fun _ => SameTransfer.refl s
  unfold tftpOp
  by_cases hoack : readU16 buf pkt = 6
  · rw [if_pos hoack, oack_handled_iff src hreads hcopied, hoack]
    simp
  by_cases hdata : readU16 buf pkt = 3
  · rw [if_neg hoack, if_pos hdata, hdata]
    by_cases hlen : 4 ≤ len
    · rw [if_neg (by omega)]
      by_cases hpkt : pkt + 4 ≤ s.rx.limit
      · rw [tftpData_handled_iff hreads hcopied hpkt (fun hok => ?_)]
        · simp [hlen, hpkt]
        · obtain ⟨hlimit, hpresent⟩ := hfit hok
          omega
      · have hover := (tftpData_later buf (pkt + 2) src (len - 2 - 2) s).overrun
          (touch_beyond (by omega))
        constructor
        · intro h
          rw [h.reads] at hover
          exact absurd hover (by decide)
        · exact fun h => absurd (h.2.1 rfl hlen).1 hpkt
    · rw [if_pos (by omega)]
      simp [hself, hlen]
  by_cases herror : readU16 buf pkt = 5
  · rw [if_neg hoack, if_neg hdata, if_pos herror, error_handled_iff hreads hcopied hhandler, herror]
    simp
  · rw [if_neg hoack, if_neg hdata, if_neg herror]
    simp [hself, hoack, hdata, herror]

/-- Calls of the TFTP handler, which reads the opcode first. -/
theorem tftpHandler_handled_iff {buf : Mem} {pkt dest src len : ℕ} (hreads : s.rx.overrun = false)
    (hcopied : s.rx.copied = 0) (hhandler : s.packetHandler = .tftp)
    (hfit : ok → pkt + len ≤ s.rx.limit ∧ len - 4 ≤ present) :
    Handled present ok s (tftpHandler buf pkt dest src len s) ↔
      (dest = s.tftp.ourPort → (s.tftp.state = .rrq ∨ src = s.tftp.serverPort) → 2 ≤ len →
        pkt + 2 ≤ s.rx.limit ∧
          (readU16 buf pkt = 6 → ok ∨ s.tftp.state = .oack ∧ s.tftp.serverPort = src) ∧
          (readU16 buf pkt = 3 → 4 ≤ len → pkt + 4 ≤ s.rx.limit ∧
            (ok ∨ RepeatsBlock (readU16 buf (pkt + 2)) s.tftp)) ∧
          (readU16 buf pkt = 5 → pkt + 4 ≤ s.rx.limit ∧
            (∃ i, pkt + 4 ≤ i ∧ i < s.rx.limit ∧ buf i = 0) ∧
            (ok ∨ s.noretry = true ∧ s.netState = .fail))) := by
  rw [tftpHandler_eq]
  split
  · rename_i htests
    obtain ⟨hdest, hsrc, hlen⟩ := htests
    by_cases hpkt : pkt + 2 ≤ s.rx.limit
    · rw [touch_within hpkt, tftpOp_handled_iff hreads hcopied hhandler hfit]
      exact ⟨fun h _ _ _ => ⟨hpkt, h⟩, fun h => (h hdest hsrc hlen).2⟩
    · have hover := (tftpOp_later buf pkt src len (s.touch (pkt + 2))).overrun
        (touch_beyond (by omega))
      constructor
      · intro h
        rw [h.reads] at hover
        exact absurd hover (by decide)
      · exact fun h => absurd (h hdest hsrc hlen).1 hpkt
  · rename_i htests
    exact ⟨fun _ hdest hsrc hlen => absurd ⟨hdest, hsrc, hlen⟩ htests,
      fun _ => handled_of_same hreads hcopied rfl fun _ => SameTransfer.refl s⟩

variable {buf : Mem} {ip len : ℕ}

theorem udpLengthOk_fits (hok : UdpLengthOk buf ip) (hiplen : ip + ipLen buf ip ≤ len) :
    let ulen := (udpLen buf ip + 2 ^ 32 - 8) % 2 ^ 32
    ip + ipHdrSize + ulen ≤ len ∧
      ulen - 4 ≤ min len (ip + ipLen buf ip) - (ip + ipHdrSize + 4) := by
  obtain ⟨hmin, hmax⟩ := hok
  have hword : udpLen buf ip < 2 ^ 16 := by
    have h1 := (buf (ip + 24)).toNat_lt
    have h2 := (buf (ip + 24 + 1)).toNat_lt
    unfold udpLen readU16
    omega
  unfold ipHdrSize ipHdrSizeNoUdp at *
  dsimp only
  omega

theorem callHandler_handled_iff (hreads : s.rx.overrun = false) (hcopied : s.rx.copied = 0)
    (hlimit : s.rx.limit = len) (hin : InTransfer s) (hiplen : ip + ipLen buf ip ≤ len) :
    Handled (min len (ip + ipLen buf ip) - (ip + ipHdrSize + 4)) (UdpLengthOk buf ip) s
        (callHandler buf (ip + ipHdrSize) (readU16 buf (ip + 22)) (readU16 buf (ip + 20))
          ((udpLen buf ip + 2 ^ 32 - 8) % 2 ^ 32) s) ↔ DatagramOk buf ip len s := by
  unfold DatagramOk
  rw [callHandler]
  rcases hin.handler with hhandler | hhandler
  · rw [hhandler]
    dsimp only
    rw [tftpHandler_handled_iff hreads hcopied hhandler, hlimit]
    · exact ⟨fun h _ => h, fun h => h rfl⟩
    · intro hok
      rw [hlimit]
      exact udpLengthOk_fits hok hiplen
  · rw [hhandler]
    dsimp only
    exact ⟨fun _ h => absurd h (by decide),
      fun _ => handled_of_same hreads hcopied rfl fun _ => SameTransfer.refl s⟩

/-- The call of the current handler with a packet that fits in the frame. -/
theorem receiveUdp_handled_iff (hrx : s.rx = ⟨len, false, 0, []⟩) (hin : InTransfer s)
    (hiplen : ip + ipLen buf ip ≤ len) :
    Handled (min len (ip + ipLen buf ip) - (ip + ipHdrSize + 4)) (UdpLengthOk buf ip) s
        (receiveUdp buf ip s) ↔ DatagramOk buf ip len s := by
  have hreads : s.rx.overrun = false := by rw [hrx]
  have hcopied : s.rx.copied = 0 := by rw [hrx]
  have hlimit : s.rx.limit = len := by rw [hrx]
  exact handled_record_iff.symm.trans
    (callHandler_handled_iff hreads hcopied hlimit ⟨hin.handler, hin.ourPort⟩ hiplen)

/-- The ICMP echo reply goes to the handler before its call as for UDP. -/
theorem echo_ignored (buf : Mem) (ip : ℕ) (hin : InTransfer s) : callHandler buf ip 0 0 0 s = s :=
  callHandler_elsewhere (Nat.ne_of_lt hin.ourPort) hin.not_ping

/-- The tests for the compiled protocols. -/
theorem receiveProto_eq (ping : Bool) (hin : InTransfer s) :
    (if ping then
      if buf (ip + 9) = 1 then receiveIcmp buf ip s
      else if buf (ip + 9) ≠ 17 then s
      else receiveUdp buf ip s
    else receiveUdp buf ip s) =
      if ping = true → buf (ip + 9) = 17 ∨
        buf (ip + 9) = 1 ∧ (buf (ip + 20) = 5 ∧ buf (ip + 21) = 1 ∨ buf (ip + 20) = 0) then
        receiveUdp buf ip s
      else s := by
  unfold receiveIcmp
  rw [echo_ignored buf ip hin]
  cases ping with
  | false => simp
  | true =>
    by_cases hicmp : buf (ip + 9) = 1
    · by_cases hredirect : buf (ip + 20) = 5
      · by_cases hhost : buf (ip + 21) = 1
        · simp [hicmp, hredirect, hhost]
        · simp [hicmp, hredirect, hhost]
      · simp [hicmp, hredirect]
    · by_cases hudp : buf (ip + 9) = 17
      · simp [hudp]
      · simp [hicmp, hudp]

theorem receiveIp_eq (ping : Bool) (hlimit : s.rx.limit = len) (hin : InTransfer s) :
    (UdpReached ping buf ip len s →
      receiveIp ping buf ip ((len : ℤ) - ip) s = receiveUdp buf ip s) ∧
    (¬UdpReached ping buf ip len s → receiveIp ping buf ip ((len : ℤ) - ip) s = s) := by
  unfold receiveIp UdpReached
  by_cases hlen : ip + ipHdrSize ≤ len
  · rw [if_neg (by omega), touch_within (by omega)]
    dsimp only
    rw [receiveProto_eq ping hin]
    constructor
    · rintro ⟨_, hiplen, hversion, hfrag, hcksum, hdest, hproto⟩
      rw [if_neg (by unfold ipLen at hiplen; omega), if_neg (not_not.mpr hversion),
        if_neg (not_not.mpr hfrag), if_neg (by simp [hcksum]), if_neg hdest, if_pos hproto]
    · intro hnot
      split
      · rfl
      split
      · rfl
      split
      · rfl
      split
      · rfl
      split
      · rfl
      split
      · rename_i hiplen hversion hfrag hcksum hdest hproto
        refine absurd ⟨hlen, ?_, not_not.mp hversion, not_not.mp hfrag, ?_, hdest, hproto⟩ hnot
        · unfold ipLen
          omega
        · simpa using hcksum
      · rfl
  · rw [if_pos (by omega)]
    exact ⟨fun h => absurd h.1 hlen, fun _ => rfl⟩

theorem receiveArp_rx (buf : Mem) {arp : ℕ} (hlimit : s.rx.limit = len) :
    (receiveArp buf arp ((len : ℤ) - arp) s).rx = s.rx := by
  unfold receiveArp
  by_cases hlen : arp + arpHdrSize ≤ len
  · rw [if_neg (by omega), touch_within (by omega)]
    dsimp only
    split_ifs
    all_goals first
      | rfl
      | exact arpReply_rx _ _ _
  · rw [if_pos (by omega)]

theorem receiveRarp_rx (buf : Mem) {arp : ℕ} (hlimit : s.rx.limit = len) (hin : InTransfer s) :
    (receiveRarp buf arp ((len : ℤ) - arp) s).rx = s.rx := by
  unfold receiveRarp
  by_cases hlen : arp + arpHdrSize ≤ len
  · rw [if_neg (by omega), touch_within (by omega)]
    dsimp only
    split
    · rfl
    · rw [callHandler_elsewhere]
      · exact Nat.ne_of_lt hin.ourPort
      · exact hin.not_ping
  · rw [if_pos (by omega)]

/-- The state at the beginning of NetReceive. -/
def NetSt.received (s : NetSt) (len : ℕ) : NetSt := { s with rx := ⟨len, false, 0, []⟩ }

theorem netReceive_eq (ping : Bool) (buf : Mem) (s : NetSt) (hlen : etherHdrSize ≤ len)
    (h802 : readU16 buf 12 < 1514 → e802HdrSize ≤ len) :
    netReceive ping buf len s =
      if readU16 buf 12 < 1514 then
        receiveProt ping buf (readU16 buf 20) e802HdrSize len (s.received len)
      else if readU16 buf 12 ≠ protVlan then
        receiveProt ping buf (readU16 buf 12) etherHdrSize len (s.received len)
      else s.received len := by
  have hbegin : (s.received len).touch 14 = s.received len := touch_within hlen
  unfold netReceive
  rw [if_neg (by omega)]
  show (if _ then receiveProt _ _ _ _ _ (((s.received len).touch 14).touch 22) else
    if _ then receiveProt _ _ _ _ _ ((s.received len).touch 14) else (s.received len).touch 14) = _
  rw [hbegin]
  by_cases hshort : readU16 buf 12 < 1514
  · have hsecond : (s.received len).touch 22 = s.received len := touch_within (h802 hshort)
    rw [if_pos hshort, if_pos hshort, hsecond]
  · rw [if_neg hshort, if_neg hshort]

theorem netReceive_ip (ping : Bool) (s : NetSt) (hlen : etherHdrSize ≤ len)
    (h802 : readU16 buf 12 < 1514 → e802HdrSize ≤ len) (hip : ipOffset buf = some ip) :
    netReceive ping buf len s = receiveIp ping buf ip ((len : ℤ) - ip) (s.received len) := by
  rw [netReceive_eq ping buf s hlen h802]
  unfold ipOffset at hip
  by_cases hshort : readU16 buf 12 < 1514
  · rw [if_pos hshort] at hip ⊢
    by_cases hprot : readU16 buf 20 = protIp
    · rw [if_pos hprot] at hip
      obtain rfl := Option.some.inj hip
      rw [hprot]
      rfl
    · rw [if_neg hprot] at hip
      exact absurd hip (by simp)
  · rw [if_neg hshort] at hip ⊢
    by_cases hprot : readU16 buf 12 = protIp
    · rw [if_pos hprot] at hip
      obtain rfl := Option.some.inj hip
      rw [hprot]
      rfl
    · rw [if_neg hprot] at hip
      exact absurd hip (by simp)

theorem receiveProt_rx (ping : Bool) (buf : Mem) {x hdr : ℕ} (hlimit : s.rx.limit = len)
    (hin : InTransfer s) (hx : x ≠ protIp) : (receiveProt ping buf x hdr len s).rx = s.rx := by
  unfold receiveProt
  dsimp only
  split
  · exact receiveArp_rx buf hlimit
  split
  · exact receiveRarp_rx buf hlimit hin
  · rfl

/-- Frames without an IP header are handled within their bounds. -/
theorem netReceive_other_rx (ping : Bool) (hin : InTransfer s) (hlen : etherHdrSize ≤ len)
    (h802 : readU16 buf 12 < 1514 → e802HdrSize ≤ len) (hip : ipOffset buf = none) :
    (netReceive ping buf len s).rx = ⟨len, false, 0, []⟩ := by
  have hin' : InTransfer (s.received len) := ⟨hin.handler, hin.ourPort⟩
  rw [netReceive_eq ping buf s hlen h802]
  unfold ipOffset at hip
  by_cases hshort : readU16 buf 12 < 1514
  · rw [if_pos hshort] at hip ⊢
    have hprot : readU16 buf 20 ≠ protIp := fun h => by simp [h] at hip
    exact receiveProt_rx ping buf rfl hin' hprot
  · rw [if_neg hshort] at hip ⊢
    have hprot : readU16 buf 12 ≠ protIp := fun h => by simp [h] at hip
    split
    · exact receiveProt_rx ping buf rfl hin' hprot
    · rfl

/-- A short frame with a length for its type is read behind its end. -/
theorem netReceive_short (ping : Bool) (buf : Mem) (s : NetSt) (hlen : etherHdrSize ≤ len)
    (h802 : readU16 buf 12 < 1514) (hshort : len < e802HdrSize) :
    (netReceive ping buf len s).rx.overrun = true := by
  have hrest : ∀ t : NetSt, receiveProt ping buf (readU16 buf 20) e802HdrSize len t = t := by
    intro t
    have hlt : len < 22 := hshort
    have hrest : (len : ℤ) - (22 : ℕ) < (28 : ℕ) := by omega
    have harp : receiveArp buf e802HdrSize ((len : ℤ) - e802HdrSize) t = t := by
      rw [receiveArp, if_pos]
      exact hrest
    have hrarp : receiveRarp buf e802HdrSize ((len : ℤ) - e802HdrSize) t = t := by
      rw [receiveRarp, if_pos]
      exact hrest
    have hip : receiveIp ping buf e802HdrSize ((len : ℤ) - e802HdrSize) t = t := by
      rw [receiveIp, if_pos]
      exact hrest
    unfold receiveProt
    dsimp only
    rw [harp, hrarp, hip]
    split_ifs <;> rfl
  unfold netReceive
  rw [if_neg (by omega)]
  dsimp only
  rw [if_pos h802, hrest]
  exact touch_beyond hshort

theorem receiveUdp_protos (buf : Mem) (ip : ℕ) (s : NetSt) :
    (receiveUdp buf ip s).rx.udpProtos = s.rx.udpProtos ++ [buf (ip + 9)] :=
  (callHandler_later _ _ _ _ _ _).udpProtos

/-- Frames whose IP header lies at ip. -/
theorem within_ip_iff (ping : Bool) (hin : InTransfer s) (hlen : etherHdrSize ≤ len)
    (h802 : readU16 buf 12 < 1514 → e802HdrSize ≤ len) (hip : ipOffset buf = some ip) :
    WithinBounds ping buf len s ↔
      (UdpReached ping buf ip len s → buf (ip + 9) = 17 ∧ DatagramOk buf ip len s) := by
  have heq := netReceive_ip ping s hlen h802 hip
  have hin' : InTransfer (s.received len) := ⟨hin.handler, hin.ourPort⟩
  have hpresent : dataPresent buf len =
      min len (ip + ipLen buf ip) - (ip + ipHdrSize + 4) := by rw [dataPresent, hip]
  have hreached : (UdpReached ping buf ip len (s.received len) → _) ∧ _ :=
    receiveIp_eq ping (show (s.received len).rx.limit = len from rfl) hin'
  by_cases hudp : UdpReached ping buf ip len s
  · rw [hreached.1 hudp] at heq
    have hiff : _ ↔ DatagramOk buf ip len (s.received len) :=
      receiveUdp_handled_iff rfl hin' hudp.2.1
    constructor
    · intro h _
      have hprotos := h.udp
      rw [heq, receiveUdp_protos] at hprotos
      refine ⟨hprotos _ (List.mem_singleton_self _), hiff.mp ⟨?_, ?_, fun hbad => ?_⟩⟩
      · rw [← heq]
        exact h.reads
      · rw [← heq, ← hpresent]
        exact h.copied
      · rw [← heq]
        obtain ⟨hmem, htftp, hsize, hnet, hhandler, htime⟩ := h.badLength ip hip hudp.1 hbad
        exact ⟨hmem, htftp, hsize, hnet, hhandler, htime⟩
    · intro h
      obtain ⟨hproto, hok⟩ := h hudp
      have hhandled := hiff.mpr hok
      refine ⟨?_, ?_, ?_, ?_⟩
      · rw [heq]
        exact hhandled.reads
      · rw [heq, receiveUdp_protos]
        intro proto hmem
        rw [List.mem_singleton.mp hmem]
        exact hproto
      · rw [heq, hpresent]
        exact hhandled.copied
      · intro ip' hip' _ hbad
        obtain rfl := Option.some.inj (hip.symm.trans hip')
        rw [heq]
        obtain ⟨hmem, htftp, hsize, hnet, hhandler, htime⟩ := hhandled.bad hbad
        exact ⟨hmem, htftp, hsize, hnet, hhandler, htime⟩
  · rw [hreached.2 hudp] at heq
    refine ⟨fun _ h => absurd h hudp, fun _ => ⟨?_, ?_, ?_, ?_⟩⟩
    · rw [heq]
      rfl
    · rw [heq]
      exact fun _ h => absurd h List.not_mem_nil
    · rw [heq]
      exact Nat.zero_le _
    · rw [heq]
      exact fun _ _ _ _ => ⟨rfl, rfl, rfl, rfl, rfl, rfl⟩

theorem within_of_rx (ping : Bool) (hrx : (netReceive ping buf len s).rx = ⟨len, false, 0, []⟩)
    (hip : ipOffset buf = none) : WithinBounds ping buf len s := by
  refine ⟨?_, ?_, ?_, fun ip hsome => ?_⟩
  · rw [hrx]
  · rw [hrx]
    exact fun _ h => absurd h List.not_mem_nil
  · rw [hrx]
    exact Nat.zero_le _
  · rw [hip] at hsome
    exact absurd hsome (by simp)

/-- A frame is handled within its bounds exactly in the cases of FrameOk. -/
theorem netReceive_within_iff (ping : Bool) (buf : Mem) (len : ℕ) (s : NetSt)
    (hin : InTransfer s) : WithinBounds ping buf len s ↔ FrameOk ping buf len s := by
  unfold FrameOk
  by_cases hlen : etherHdrSize ≤ len
  · by_cases h802 : readU16 buf 12 < 1514 → e802HdrSize ≤ len
    · cases hip : ipOffset buf with
      | none =>
        have hwithin := within_of_rx ping (netReceive_other_rx ping hin hlen h802 hip) hip
        exact ⟨fun _ _ => ⟨h802, fun _ h => absurd h (by simp)⟩, fun _ => hwithin⟩
      | some ip =>
        rw [within_ip_iff ping hin hlen h802 hip]
        constructor
        · intro h _
          refine ⟨h802, fun ip' hip' => ?_⟩
          obtain rfl := Option.some.inj hip'
          exact h
        · exact fun h => (h hlen).2 ip rfl
    · rw [Classical.not_imp] at h802
      have hover := netReceive_short ping buf s hlen h802.1 (by omega)
      constructor
      · intro h
        rw [h.reads] at hover
        exact absurd hover (by decide)
      · exact fun h => absurd ((h hlen).1 h802.1) h802.2
  · have hnone : netReceive ping buf len s = s.received len := by
      unfold netReceive
      rw [if_pos (by omega)]
      rfl
    refine ⟨fun _ h => absurd h hlen, fun _ => ⟨?_, ?_, ?_, ?_⟩⟩
    · rw [hnone]
      rfl
    · rw [hnone]
      exact fun _ h => absurd h List.not_mem_nil
    · rw [hnone]
      exact Nat.zero_le _
    · rw [hnone]
      exact fun _ _ _ _ => ⟨rfl, rfl, rfl, rfl, rfl, rfl⟩

theorem localStart_inTransfer : InTransfer localStart := ⟨Or.inl rfl, by decide⟩

/-- The first block of a file, of three bytes. -/
def dataFrame : Mem := fun i =>
  (Board.local.enetaddr ++ serverMac ++ be16 protIp ++
    netSetIP 1 Board.local.serverip Board.local.ipAddr 1024 2000 7 ++
    be16 3 ++ be16 1 ++ [1, 2, 3]).getD i 0

theorem netReceive_within_data : WithinBounds false dataFrame 49 localStart ∧
    (netReceive false dataFrame 49 localStart).rx.copied = 3 := by
  refine ⟨(netReceive_within_iff false dataFrame 49 localStart localStart_inTransfer).mpr fun _ =>
    ⟨fun h => absurd h (by decide), fun ip hip _ => ?_⟩, rfl⟩
  obtain rfl := Option.some.inj hip
  exact ⟨by decide, fun _ _ _ _ => ⟨by decide, fun h => absurd h (by decide),
    fun _ _ => ⟨by decide, Or.inl (by unfold UdpLengthOk; decide)⟩, fun h => absurd h (by decide)⟩⟩

/-- The bytes 20 and 21 of a frame of 14 bytes are read. -/
theorem short_frame_overrun : InTransfer localStart ∧
    ¬WithinBounds false (fun _ => 0) 14 localStart :=
  ⟨localStart_inTransfer, fun h => absurd h.reads (by decide)⟩

end Iot7688.Net
