import Iot7688.NetBounds

/-!
The packet that waits for an ARP reply, over any number of protocol runs. NetArpWaitTxPacket
holds the packet, but the reply has TftpSend build one from the present transfer state
instead, once any TFTP run has started. That is the waiting packet as long as a TFTP
packet waits and the transfer does not go on under it.
-/
namespace Iot7688.Net

open Lib

/-- What a command sets before it calls NetLoop, what NetLoop reads, and the clock. -/
structure NetCall where
  protocol : Proto
  board : Board
  clock : ℕ
  ready : Bool
  loadAddr : ℕ
  bootFile : List Byte
  noretry : Bool
  pingIP : IPaddr

inductive NetEvent
  | netLoop (c : NetCall)
  | receive (buf : Mem) (len : ℕ)
  | turn (ctrlc arpExpired timeExpired : Bool) (clock : ℕ)

/-- The globals and the call of NetLoop that has not returned. -/
structure Machine where
  net : NetSt
  run : Option (Proto × Board)

def Machine.next (ping : Bool) (m : Machine) : NetEvent → Machine
  | .netLoop c =>
      match m.run with
      | some _ => m
      | none =>
          let r := netLoopStart c.protocol c.board c.clock c.ready
            { m.net with
              loadAddr := c.loadAddr
              bootFile := c.bootFile
              noretry := c.noretry
              pingIP := c.pingIP }
          ⟨r.2, if r.1 then some (c.protocol, c.board) else none⟩
  | .receive buf len =>
      match m.run with
      | some _ => { m with net := netReceive ping buf len m.net }
      | none => m
  | .turn ctrlc arpExpired timeExpired clock =>
      match m.run with
      | none => m
      | some (protocol, b) =>
          match turnEnd ctrlc arpExpired timeExpired m.net with
          | (.again, s) => { m with net := s }
          | (.restart, s) =>
              let r := netRestart protocol b clock s
              ⟨r.2, if r.1 then some (protocol, b) else none⟩
          | (.ret _, s) => ⟨s, none⟩

/-- The same IP destination and the same bytes behind the IP header. -/
structure Frame.SameContents (f g : Frame) : Prop where
  prot : f.prot = g.prot
  dest : (f.body.drop 16).take 4 = (g.body.drop 16).take 4
  payload : f.body.drop ipHdrSizeNoUdp = g.body.drop ipHdrSizeNoUdp

/-- Where the ARP header of a frame is. -/
def arpOffset (buf : Mem) (len : ℕ) : Option ℕ :=
  if len < etherHdrSize then none
  else if readU16 buf 12 < 1514 then
    if readU16 buf 20 = protArp then some e802HdrSize else none
  else if readU16 buf 12 = protArp then some etherHdrSize
  else none

/-- An ARP reply to this board. -/
structure IsArpReply (buf : Mem) (arp len : ℕ) (s : NetSt) : Prop where
  length : arp + arpHdrSize ≤ len
  hardware : readU16 buf arp = 1
  protocol : readU16 buf (arp + 2) = protIp
  hardwareLength : buf (arp + 4) = 6
  protocolLength : buf (arp + 5) = 4
  configured : s.ourIP ≠ 0
  target : readIP buf (arp + 24) = s.ourIP
  operation : readU16 buf (arp + 6) = 2

/-- The reply that a packet waits for. -/
structure AnswersWait (buf : Mem) (arp len : ℕ) (s : NetSt) : Prop where
  reply : IsArpReply buf arp len s
  pending : s.arpWait.packetIP ≠ 0
  known : s.arpWait.packetMAC ≠ .null
  sender : readIP buf (arp + 14) = s.arpWait.replyIP

/-- The waiting packet goes out to mac, and nothing else does. -/
structure Delivered (mac : Ether) (s s' : NetSt) : Prop where
  sent : ∃ fr, s'.sent = s.sent ++ [fr] ∧ fr.dest = mac ∧ fr.SameContents s.arpWait.txPacket
  done : s'.arpWait.packetIP = 0

structure WaitUnchanged (s s' : NetSt) : Prop where
  arpWait : s'.arpWait = s.arpWait
  serverEther : s'.serverEther = s.serverEther
  pingMac : s'.pingMac = s.pingMac

/-- A waiting packet is not lost. -/
def StillWaits (s s' : NetSt) : Prop :=
  s.arpWait.packetIP ≠ 0 → s'.arpWait.packetIP ≠ 0 ∧
    s'.arpWait.txPacket.SameContents s.arpWait.txPacket

/-- What waits after the start of a protocol run is its first packet. -/
def Opened (protocol : Proto) (s : NetSt) : Prop :=
  s.arpWait.packetIP ≠ 0 → match protocol with
    | .tftp => s.tftp.state = .rrq ∧ s.arpWait.txPacket.SameContents (tftpFrame s)
    | .ping => ∃ id seq, s.arpWait.txPacket =
        ⟨netEtherNullAddr, s.ourEther, protIp, pingBody { s with ipId := id, pingSeqNo := seq }⟩

/-- What is wanted of a received frame. -/
structure FrameKept (ping : Bool) (buf : Mem) (len : ℕ) (s : NetSt) : Prop where
  answer : ∀ arp, arpOffset buf len = some arp → AnswersWait buf arp len s →
    Delivered (readEther buf (arp + 8)) s (netReceive ping buf len s)
  otherArp : ∀ arp, arpOffset buf len = some arp → ¬AnswersWait buf arp len s →
    WaitUnchanged s (netReceive ping buf len s)
  other : arpOffset buf len = none → StillWaits s (netReceive ping buf len s)

/-- What is wanted of every event. -/
def DeferredOk (ping : Bool) (m : Machine) : NetEvent → Prop
  | .netLoop c => m.run = none → (m.next ping (.netLoop c)).run ≠ none →
      Opened c.protocol (m.next ping (.netLoop c)).net
  | .receive buf len => m.run ≠ none → FrameKept ping buf len m.net
  | .turn ctrlc arpExpired timeExpired clock => ∀ protocol b, m.run = some (protocol, b) →
      match turnEnd ctrlc arpExpired timeExpired m.net with
      | (.again, s) => StillWaits m.net s
      | (.restart, s) => (netRestart protocol b clock s).1 = true →
          Opened protocol (netRestart protocol b clock s).2
      | (.ret _, _) => True

/-- The transfer goes on with a packet: an OACK that answers the request, or a block
that is not the present one. -/
def GoesOn (buf : Mem) (pkt dest src len : ℕ) (s : NetSt) : Prop :=
  s.packetHandler = .tftp ∧ dest = s.tftp.ourPort ∧
    (s.tftp.state = .rrq ∨ src = s.tftp.serverPort) ∧ 2 ≤ len ∧
    (readU16 buf pkt = 6 ∧ s.tftp.state = .rrq ∨
      readU16 buf pkt = 3 ∧ 4 ≤ len ∧
        (s.tftp.state = .rrq ∨ readU16 buf (pkt + 2) ≠ s.tftp.block))

/-- The frames under which a waiting packet is what TftpSend sends. -/
structure FrameFits (ping : Bool) (buf : Mem) (len : ℕ) (s : NetSt) : Prop where
  answer : ∀ arp, arpOffset buf len = some arp → AnswersWait buf arp len s →
    s.arpWait.packetMAC = .serverEther ∧ readEther buf (arp + 8) ≠ netEtherNullAddr
  transfer : s.arpWait.packetIP ≠ 0 → ∀ ip, ipOffset buf = some ip →
    UdpReached ping buf ip len s →
      ¬GoesOn buf (ip + ipHdrSize) (readU16 buf (ip + 22)) (readU16 buf (ip + 20))
        ((udpLen buf ip + 2 ^ 32 - 8) % 2 ^ 32) s

def DeferredFits (ping : Bool) (m : Machine) : NetEvent → Prop
  | .receive buf len => m.run ≠ none → FrameFits ping buf len m.net
  | _ => True

theorem Frame.SameContents.refl (f : Frame) : f.SameContents f := ⟨rfl, rfl, rfl⟩

theorem Frame.SameContents.symm {f g : Frame} (h : f.SameContents g) : g.SameContents f :=
  ⟨h.prot.symm, h.dest.symm, h.payload.symm⟩

theorem Frame.SameContents.trans {f g k : Frame} (h : f.SameContents g) (h' : g.SameContents k) :
    f.SameContents k :=
  ⟨h.prot.trans h'.prot, h.dest.trans h'.dest, h.payload.trans h'.payload⟩

theorem udpFrame_dest (s : NetSt) (ether : Ether) (dest : IPaddr) (dport sport : ℕ)
    (data : List Byte) :
    ((udpFrame s ether dest dport sport data).body.drop 16).take 4 = ipBytes dest := rfl

theorem udpFrame_payload (s : NetSt) (ether : Ether) (dest : IPaddr) (dport sport : ℕ)
    (data : List Byte) : (udpFrame s ether dest dport sport data).body.drop ipHdrSizeNoUdp =
      be16 sport ++ be16 dport ++ be16 (8 + data.length) ++ [0, 0] ++ data := rfl

/-- The contents of a UDP packet do not depend on the Ethernet addresses, the packet id
and the own address. -/
theorem udpFrame_contents (s s' : NetSt) (ether ether' : Ether) (dest : IPaddr)
    (dport sport : ℕ) (data : List Byte) :
    (udpFrame s ether dest dport sport data).SameContents
      (udpFrame s' ether' dest dport sport data) :=
  ⟨rfl, (udpFrame_dest s ether dest dport sport data).trans
      (udpFrame_dest s' ether' dest dport sport data).symm,
    (udpFrame_payload s ether dest dport sport data).trans
      (udpFrame_payload s' ether' dest dport sport data).symm⟩

theorem StillWaits.trans {s s1 s2 : NetSt} (h : StillWaits s s1) (h' : StillWaits s1 s2) :
    StillWaits s s2 := fun hip =>
  ⟨(h' (h hip).1).1, (h' (h hip).1).2.trans (h hip).2⟩

/-- A step beside the transfer: the server, the transfer state up to the count of
timeouts and the waiting packet are the same. -/
structure Aside (s s' : NetSt) : Prop where
  packetIP : s'.arpWait.packetIP = s.arpWait.packetIP
  packetMAC : s'.arpWait.packetMAC = s.arpWait.packetMAC
  txPacket : s'.arpWait.txPacket = s.arpWait.txPacket
  serverIP : s.serverIP ≠ 0 → s'.serverIP = s.serverIP
  started : s'.tftpStarted = s.tftpStarted
  tftp : ∃ n, s'.tftp = { s.tftp with timeoutCount := n }
  handler : s'.packetHandler = s.packetHandler ∨ s'.packetHandler = .startAgain
  time : s'.timeHandler = s.timeHandler ∨ s'.timeHandler = .null ∨ s'.timeHandler = .startAgain

theorem Aside.refl (s : NetSt) : Aside s s :=
  ⟨rfl, rfl, rfl, fun _ => rfl, rfl, ⟨_, rfl⟩, Or.inl rfl, Or.inl rfl⟩

theorem Aside.trans {s s1 s2 : NetSt} (h : Aside s s1) (h' : Aside s1 s2) : Aside s s2 := by
  obtain ⟨n, hn⟩ := h.tftp
  obtain ⟨n', hn'⟩ := h'.tftp
  refine ⟨h'.packetIP.trans h.packetIP, h'.packetMAC.trans h.packetMAC,
    h'.txPacket.trans h.txPacket, fun hip => ?_, h'.started.trans h.started,
    ⟨n', by rw [hn', hn]⟩, ?_, ?_⟩
  · have heq := h.serverIP hip
    exact (h'.serverIP (heq ▸ hip)).trans heq
  · rcases h'.handler with h' | h'
    · rw [h']
      exact h.handler
    · exact Or.inr h'
  · rcases h'.time with h' | h'
    · rw [h']
      exact h.time
    · exact Or.inr h'

theorem Aside.ite {s a b : NetSt} {p : Prop} [Decidable p] (ha : Aside s a) (hb : Aside s b) :
    Aside s (if p then a else b) := by
  split
  · exact ha
  · exact hb

theorem Aside.stillWaits {s s' : NetSt} (h : Aside s s') : StillWaits s s' := by
  intro hip
  rw [h.packetIP, h.txPacket]
  exact ⟨hip, Frame.SameContents.refl _⟩

/-- Only what is sent or recorded of the received packet changes. -/
theorem aside_record (s : NetSt) (fs : List Frame) (rx : Rx) :
    Aside s { s with sent := fs, rx := rx } :=
  ⟨rfl, rfl, rfl, fun _ => rfl, rfl, ⟨_, rfl⟩, Or.inl rfl, Or.inl rfl⟩

theorem arpRequest_aside (s : NetSt) : Aside s (arpRequest s) :=
  ⟨rfl, rfl, rfl, fun _ => rfl, rfl, ⟨_, rfl⟩, Or.inl rfl, Or.inl rfl⟩

theorem netStartAgain_aside (s : NetSt) : Aside s (netStartAgain s) := by
  unfold netStartAgain
  split
  · exact ⟨rfl, rfl, rfl, fun _ => rfl, rfl, ⟨_, rfl⟩, Or.inl rfl, Or.inl rfl⟩
  · exact ⟨rfl, rfl, rfl, fun _ => rfl, rfl, ⟨_, rfl⟩, Or.inr rfl, Or.inr (Or.inr rfl)⟩

theorem arpTimeoutCheck_aside (expired : Bool) (s : NetSt) :
    Aside s (arpTimeoutCheck expired s) := by
  have htries : ∀ n, Aside s { s with arpWait := { s.arpWait with tries := n } } := fun _ =>
    ⟨rfl, rfl, rfl, fun _ => rfl, rfl, ⟨_, rfl⟩, Or.inl rfl, Or.inl rfl⟩
  unfold arpTimeoutCheck
  dsimp only
  split
  · exact Aside.refl s
  · split
    · split
      · exact (htries 0).trans (netStartAgain_aside _)
      · exact (htries _).trans (arpRequest_aside _)
    · exact Aside.refl s

/-- The timers of a ping run. -/
theorem runTimeHandler_aside {s : NetSt} (htime : s.timeHandler ≠ .tftpTimeout) :
    Aside s (runTimeHandler s) := by
  unfold runTimeHandler
  dsimp only
  split
  · exact Aside.refl s
  · exact absurd ‹_› htime
  · exact ⟨rfl, rfl, rfl, fun _ => rfl, rfl, ⟨_, rfl⟩, Or.inl rfl, Or.inr (Or.inl rfl)⟩
  · exact ⟨rfl, rfl, rfl, fun _ => rfl, rfl, ⟨_, rfl⟩, Or.inl rfl, Or.inr (Or.inl rfl)⟩

/-- A call of the handler with a packet that is not for the TFTP port. -/
theorem callHandler_aside {buf : Mem} {pkt dest src len : ℕ} {s : NetSt}
    (hdest : s.packetHandler = .tftp → dest ≠ s.tftp.ourPort) :
    Aside s (callHandler buf pkt dest src len s) := by
  unfold callHandler
  split
  · rw [tftpHandler, if_pos (hdest ‹_›)]
    exact Aside.refl s
  · unfold pingHandler
    dsimp only
    split
    · exact aside_record s s.sent _
    · exact ⟨rfl, rfl, rfl, fun _ => rfl, rfl, ⟨_, rfl⟩, Or.inl rfl, Or.inl rfl⟩
  · exact Aside.refl s
  · exact Aside.refl s

theorem receiveRarp_aside (buf : Mem) (arp : ℕ) (len : ℤ) {s : NetSt}
    (hport : s.packetHandler = .tftp → 0 ≠ s.tftp.ourPort) :
    Aside s (receiveRarp buf arp len s) := by
  have htouch : Aside s (s.touch (arp + arpHdrSize)) := aside_record s s.sent _
  unfold receiveRarp
  dsimp only
  split
  · exact Aside.refl s
  · split
    · exact htouch
    · refine Aside.trans ?_ (callHandler_aside hport)
      exact ⟨rfl, rfl, rfl, fun hip => if_neg hip, rfl, ⟨_, rfl⟩, Or.inl rfl, Or.inl rfl⟩

/-- What is sent and recorded of a frame; the rest stays. -/
def Recorded (s s' : NetSt) : Prop := ∃ fs rx, s' = { s with sent := s.sent ++ fs, rx := rx }

theorem Recorded.touch (s : NetSt) (n : ℕ) : Recorded s (s.touch n) :=
  ⟨[], (s.touch n).rx, by rw [List.append_nil]; rfl⟩

theorem Recorded.aside {s s' : NetSt} (h : Recorded s s') : Aside s s' := by
  obtain ⟨fs, rx, rfl⟩ := h
  exact aside_record s _ rx

theorem Recorded.unchanged {s s' : NetSt} (h : Recorded s s') : WaitUnchanged s s' := by
  obtain ⟨fs, rx, rfl⟩ := h
  exact ⟨rfl, rfl, rfl⟩

/-- An ARP packet that no packet waits for is answered at most. -/
theorem receiveArp_unanswered {buf : Mem} {arp len : ℕ} (s : NetSt)
    (hnot : ¬AnswersWait buf arp len s) :
    Recorded s (receiveArp buf arp ((len : ℤ) - arp) s) := by
  have htouch := Recorded.touch s (arp + arpHdrSize)
  unfold receiveArp
  dsimp only
  split
  · exact ⟨[], s.rx, by rw [List.append_nil]⟩
  rename_i hlength
  split
  · exact htouch
  rename_i hhardware
  split
  · exact htouch
  rename_i hprotocol
  split
  · exact htouch
  rename_i hhardwareLength
  split
  · exact htouch
  rename_i hprotocolLength
  split
  · exact htouch
  rename_i hconfigured
  split
  · exact htouch
  rename_i htarget
  split
  · exact ⟨_, _, rfl⟩
  split
  · rename_i hoperation
    unfold arpReply
    dsimp only
    split
    · exact htouch
    rename_i hwaits
    obtain ⟨hpending, hknown⟩ := not_or.mp hwaits
    split
    · rename_i hsender
      refine absurd ⟨⟨?_, ?_, ?_, ?_, ?_, hconfigured, ?_, hoperation⟩, hpending, hknown, hsender⟩
        hnot
      · unfold arpHdrSize at hlength ⊢
        omega
      · exact not_not.mp hhardware
      · exact not_not.mp hprotocol
      · exact not_not.mp hhardwareLength
      · exact not_not.mp hprotocolLength
      · exact not_not.mp htarget
    · exact htouch
  · exact htouch

theorem receiveArp_answered {buf : Mem} {arp len : ℕ} {s : NetSt} (h : AnswersWait buf arp len s) :
    receiveArp buf arp ((len : ℤ) - arp) s = arpReply buf arp (s.touch (arp + arpHdrSize)) := by
  obtain ⟨⟨hlength, hhardware, hprotocol, hhardwareLength, hprotocolLength, hconfigured, htarget,
    hoperation⟩, _, _, _⟩ := h
  have hlong : ¬(len : ℤ) - arp < arpHdrSize := by omega
  have hours : (s.touch (arp + arpHdrSize)).ourIP = s.ourIP := rfl
  unfold receiveArp
  dsimp only
  rw [if_neg hlong, if_neg (not_not.mpr hhardware), if_neg (not_not.mpr hprotocol),
    if_neg (not_not.mpr hhardwareLength), if_neg (not_not.mpr hprotocolLength), hours,
    if_neg hconfigured, if_neg (not_not.mpr htarget), if_neg (by rw [hoperation]; decide),
    if_pos hoperation]

/-- A frame with an ARP header is taken as ARP. -/
theorem netReceive_arp (ping : Bool) {buf : Mem} {arp len : ℕ} (s : NetSt)
    (harp : arpOffset buf len = some arp) :
    ∃ rx, netReceive ping buf len s =
      receiveArp buf arp ((len : ℤ) - arp) { s with rx := rx } := by
  have hvlan : protArp ≠ protVlan := by decide
  unfold arpOffset at harp
  split at harp
  · exact absurd harp (by simp)
  rename_i hlen
  unfold netReceive receiveProt
  rw [if_neg hlen]
  dsimp only
  by_cases hshort : readU16 buf 12 < 1514
  · rw [if_pos hshort] at harp ⊢
    by_cases hprot : readU16 buf 20 = protArp
    · rw [if_pos hprot] at harp ⊢
      obtain rfl := Option.some.inj harp
      exact ⟨_, rfl⟩
    · rw [if_neg hprot] at harp
      exact absurd harp (by simp)
  · rw [if_neg hshort] at harp ⊢
    by_cases hprot : readU16 buf 12 = protArp
    · rw [if_pos hprot] at harp
      obtain rfl := Option.some.inj harp
      rw [if_pos (hprot ▸ hvlan), if_pos hprot]
      exact ⟨_, rfl⟩
    · rw [if_neg hprot] at harp
      exact absurd harp (by simp)

theorem netReceive_unanswered (ping : Bool) {buf : Mem} {arp len : ℕ} {s : NetSt}
    (harp : arpOffset buf len = some arp) (hnot : ¬AnswersWait buf arp len s) :
    Recorded s (netReceive ping buf len s) := by
  obtain ⟨rx, heq⟩ := netReceive_arp ping s harp
  obtain ⟨fs, rx', heq'⟩ := receiveArp_unanswered { s with rx := rx }
    (fun h => hnot ⟨⟨h.1.1, h.1.2, h.1.3, h.1.4, h.1.5, h.1.6, h.1.7, h.1.8⟩, h.2, h.3, h.4⟩)
  exact ⟨fs, rx', heq.trans heq'⟩

theorem receiveProt_cases (ping : Bool) (buf : Mem) {x : ℕ} (hdr len : ℕ) (s : NetSt)
    (hx : x ≠ protArp) :
    receiveProt ping buf x hdr len s = s ∨
      receiveProt ping buf x hdr len s = receiveRarp buf hdr ((len : ℤ) - hdr) s ∨
      x = protIp ∧
        receiveProt ping buf x hdr len s = receiveIp ping buf hdr ((len : ℤ) - hdr) s := by
  unfold receiveProt
  dsimp only
  rw [if_neg hx]
  by_cases hrarp : x = protRarp
  · rw [if_pos hrarp]
    exact Or.inr (Or.inl rfl)
  · rw [if_neg hrarp]
    by_cases hip : x = protIp
    · rw [if_pos hip]
      exact Or.inr (Or.inr ⟨hip, rfl⟩)
    · rw [if_neg hip]
      exact Or.inl rfl

/-- A frame without an ARP header is dropped, or taken as RARP or as IP. -/
theorem netReceive_cases (ping : Bool) {buf : Mem} {len : ℕ} (s : NetSt)
    (harp : arpOffset buf len = none) :
    ∃ rx : Rx, rx.limit = len ∧ (netReceive ping buf len s = { s with rx := rx } ∨
      (∃ hdr : ℕ, netReceive ping buf len s =
        receiveRarp buf hdr ((len : ℤ) - hdr) { s with rx := rx }) ∨
      ∃ ip : ℕ, ipOffset buf = some ip ∧ netReceive ping buf len s =
        receiveIp ping buf ip ((len : ℤ) - ip) { s with rx := rx }) := by
  unfold arpOffset at harp
  unfold netReceive ipOffset
  dsimp only
  split at harp
  · rename_i hlen
    rw [if_pos hlen]
    exact ⟨_, rfl, Or.inl rfl⟩
  rename_i hlen
  rw [if_neg hlen]
  by_cases hshort : readU16 buf 12 < 1514
  · rw [if_pos hshort] at harp ⊢
    have hx : readU16 buf 20 ≠ protArp := fun hx => by simp [hx] at harp
    refine ⟨((({ s with rx := ⟨len, false, 0, []⟩ } : NetSt).touch 14).touch 22).rx, rfl, ?_⟩
    rcases receiveProt_cases ping buf e802HdrSize len
      ((({ s with rx := ⟨len, false, 0, []⟩ } : NetSt).touch 14).touch 22) hx with h | h | ⟨hip, h⟩
    · exact Or.inl h
    · exact Or.inr (Or.inl ⟨_, h⟩)
    · rw [if_pos hshort, if_pos hip]
      exact Or.inr (Or.inr ⟨_, rfl, h⟩)
  · rw [if_neg hshort] at harp ⊢
    have hx : readU16 buf 12 ≠ protArp := fun hx => by simp [hx] at harp
    refine ⟨(({ s with rx := ⟨len, false, 0, []⟩ } : NetSt).touch 14).rx, rfl, ?_⟩
    split
    · rcases receiveProt_cases ping buf etherHdrSize len
        (({ s with rx := ⟨len, false, 0, []⟩ } : NetSt).touch 14) hx with h | h | ⟨hip, h⟩
      · exact Or.inl h
      · exact Or.inr (Or.inl ⟨_, h⟩)
      · rw [if_pos hip]
        exact Or.inr (Or.inr ⟨_, rfl, h⟩)
    · exact Or.inl rfl

theorem receiveUdp_aside {buf : Mem} {ip : ℕ} {s : NetSt} (h : s.packetHandler ≠ .tftp) :
    Aside s (receiveUdp buf ip s) := by
  unfold receiveUdp
  exact (aside_record s s.sent _).trans (callHandler_aside fun htftp => absurd htftp h)

theorem receiveIp_aside (ping : Bool) {buf : Mem} {ip : ℕ} (len : ℤ) {s : NetSt}
    (h : s.packetHandler ≠ .tftp) : Aside s (receiveIp ping buf ip len s) := by
  have htouch : Aside s (s.touch (ip + ipHdrSize)) := (Recorded.touch s _).aside
  have hudp : Aside s (receiveUdp buf ip (s.touch (ip + ipHdrSize))) :=
    htouch.trans (receiveUdp_aside h)
  have hcall : Aside s (callHandler buf ip 0 0 0 (s.touch (ip + ipHdrSize))) :=
    htouch.trans (callHandler_aside fun htftp => absurd htftp h)
  have hecho : Aside s
      (receiveUdp buf ip (callHandler buf ip 0 0 0 (s.touch (ip + ipHdrSize)))) := by
    refine hcall.trans (receiveUdp_aside fun htftp => ?_)
    rcases hcall.handler with hh | hh
    · exact h (hh.symm.trans htftp)
    · exact absurd (hh.symm.trans htftp) (by decide)
  have hicmp : Aside s (receiveIcmp buf ip (s.touch (ip + ipHdrSize))) :=
    (htouch.ite hudp).ite (hecho.ite htouch)
  unfold receiveIp
  dsimp only
  exact (Aside.refl s).ite (htouch.ite (htouch.ite (htouch.ite (htouch.ite (htouch.ite
    ((hicmp.ite (htouch.ite hudp)).ite hudp))))))

/-- A frame without an ARP header in a run that is not a TFTP run. -/
theorem netReceive_aside (ping : Bool) {buf : Mem} {len : ℕ} {s : NetSt}
    (harp : arpOffset buf len = none) (h : s.packetHandler ≠ .tftp) :
    Aside s (netReceive ping buf len s) := by
  obtain ⟨rx, _, heq | ⟨hdr, heq⟩ | ⟨ip, _, heq⟩⟩ := netReceive_cases ping s harp
  · rw [heq]
    exact aside_record s s.sent rx
  · rw [heq]
    exact (aside_record s s.sent rx).trans (receiveRarp_aside _ _ _ fun htftp => absurd htftp h)
  · rw [heq]
    exact (aside_record s s.sent rx).trans (receiveIp_aside ping _ h)

end Iot7688.Net
