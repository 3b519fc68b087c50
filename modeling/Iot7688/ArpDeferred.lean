import Iot7688.ArpWait

/-!
In a TFTP run the waiting packet is the packet of the transfer state as long as the
transfer does not go on under it; in a ping run the echo request waits. From one event
to the next this holds over any number of runs, so what an answer sends is what waited.
-/
namespace Iot7688.Net

open Lib

/-- A TFTP packet waits that is the one of the transfer state. -/
structure TftpWaits (s : NetSt) : Prop where
  packetMAC : s.arpWait.packetMAC = .serverEther
  packetIP : s.arpWait.packetIP = s.serverIP
  notBroadcast : s.serverIP ≠ 0xFFFFFFFF#32
  contents : s.arpWait.txPacket.SameContents (tftpFrame s)

/-- The state in a TFTP run from the server at ip. -/
structure TftpRun (ip : IPaddr) (s : NetSt) : Prop where
  transfer : InTransfer s
  started : s.tftpStarted = true
  state : s.tftp.state = .rrq ∨ s.tftp.state = .oack ∨ s.tftp.state = .data
  serverIP : s.serverIP = ip
  configured : ip ≠ 0
  slot : s.arpWait.packetIP ≠ 0 → TftpWaits s

/-- The transfer state changes at most where no packet waits. -/
structure Follows (s u : NetSt) : Prop where
  packetIP : u.arpWait.packetIP = s.arpWait.packetIP
  packetMAC : u.arpWait.packetMAC = s.arpWait.packetMAC
  txPacket : u.arpWait.txPacket = s.arpWait.txPacket
  serverIP : u.serverIP = s.serverIP
  started : u.tftpStarted = s.tftpStarted
  handler : u.packetHandler = s.packetHandler ∨ u.packetHandler = .startAgain
  ourPort : u.tftp.ourPort = s.tftp.ourPort
  state : u.tftp.state = .rrq ∨ u.tftp.state = .oack ∨ u.tftp.state = .data
  same : s.arpWait.packetIP ≠ 0 →
    tftpPacket u.tftp = tftpPacket s.tftp ∧ u.tftp.serverPort = s.tftp.serverPort

/-- The run goes on and keeps a waiting packet. -/
structure Carries (ip : IPaddr) (s s' : NetSt) : Prop where
  run : TftpRun ip s'
  waits : StillWaits s s'

theorem Carries.trans {ip : IPaddr} {s s1 s2 : NetSt} (h : Carries ip s s1)
    (h' : TftpRun ip s1 → Carries ip s1 s2) : Carries ip s s2 :=
  ⟨(h' h.run).run, h.waits.trans (h' h.run).waits⟩

section

variable {ip : IPaddr} {s : NetSt}

theorem TftpRun.follows (h : TftpRun ip s) {u : NetSt} (hu : Follows s u) : Carries ip s u := by
  refine ⟨⟨⟨?_, hu.ourPort ▸ h.transfer.ourPort⟩, hu.started.trans h.started, hu.state,
    hu.serverIP.trans h.serverIP, h.configured, fun hip => ?_⟩, fun hip => ?_⟩
  · rcases hu.handler with hh | hh
    · rw [hh]
      exact h.transfer.handler
    · exact Or.inr hh
  · rw [hu.packetIP] at hip
    have hslot := h.slot hip
    obtain ⟨hpacket, hport⟩ := hu.same hip
    refine ⟨hu.packetMAC.trans hslot.packetMAC, ?_, hu.serverIP ▸ hslot.notBroadcast, ?_⟩
    · rw [hu.packetIP, hu.serverIP]
      exact hslot.packetIP
    · rw [hu.txPacket]
      refine hslot.contents.trans ?_
      unfold tftpFrame
      rw [hpacket, hport, hu.ourPort, hu.serverIP]
      exact udpFrame_contents s u _ _ _ _ _ _
  · rw [hu.packetIP, hu.txPacket]
    exact ⟨hip, Frame.SameContents.refl _⟩

theorem TftpRun.aside (h : TftpRun ip s) {u : NetSt} (hu : Aside s u) : Carries ip s u := by
  have hip : s.serverIP ≠ 0 := h.serverIP ▸ h.configured
  obtain ⟨n, hn⟩ := hu.tftp
  refine h.follows ⟨hu.packetIP, hu.packetMAC, hu.txPacket, hu.serverIP hip, hu.started, hu.handler,
    ?_, ?_, fun _ => ?_⟩
  · rw [hn]
  · rw [hn]
    exact h.state
  · rw [hn]
    exact ⟨rfl, rfl⟩

/-- A packet for a server whose Ethernet address is unknown waits. -/
theorem netSendUDPPacket_defers {dest : IPaddr} (dport sport : ℕ) (data : List Byte)
    (hdest : dest ≠ 0) (hbroadcast : dest ≠ 0xFFFFFFFF#32)
    (hether : s.serverEther = netEtherNullAddr) :
    ∃ reply frame size fs, netSendUDPPacket dest dport sport data s =
      { s with
        arpWait := ⟨dest, reply, .serverEther, frame, size, 1⟩
        ipId := s.ipId + 1
        sent := s.sent ++ fs } ∧
      frame.SameContents (udpFrame s s.serverEther dest dport sport data) := by
  unfold netSendUDPPacket
  dsimp only
  rw [if_neg hdest, if_neg hbroadcast, if_pos hether]
  exact ⟨_, _, _, _, rfl, udpFrame_contents _ _ _ _ _ _ _ _⟩

theorem tftpSend_broadcast (hbroadcast : s.serverIP = 0xFFFFFFFF#32) :
    ∃ fr, tftpSend s = { s with ipId := s.ipId + 1, sent := s.sent ++ [fr] } := by
  have hnull : netBcastAddr ≠ netEtherNullAddr := by decide
  have hdest : s.serverIP ≠ 0 := by
    rw [hbroadcast]
    decide
  unfold tftpSend netSendUDPPacket
  dsimp only
  rw [if_neg hdest, if_pos hbroadcast, if_neg hnull]
  exact ⟨_, rfl⟩

/-- Sending the packet of the transfer state, with at most this packet waiting. -/
theorem tftpSend_carries (h : TftpRun ip s) : Carries ip s (tftpSend s) := by
  have hip : s.serverIP ≠ 0 := h.serverIP ▸ h.configured
  have hsent : ∀ n fs, Aside s { s with ipId := n, sent := fs } := fun _ _ =>
    ⟨rfl, rfl, rfl, fun _ => rfl, rfl, ⟨_, rfl⟩, Or.inl rfl, Or.inl rfl⟩
  by_cases hbroadcast : s.serverIP = 0xFFFFFFFF#32
  · obtain ⟨fr, heq⟩ := tftpSend_broadcast hbroadcast
    rw [heq]
    exact h.aside (hsent _ _)
  by_cases hether : s.serverEther = netEtherNullAddr
  · obtain ⟨reply, frame, size, fs, heq, hframe⟩ := netSendUDPPacket_defers s.tftp.serverPort
      s.tftp.ourPort (tftpPacket s.tftp) hip hbroadcast hether
    unfold tftpSend
    rw [heq]
    refine ⟨⟨⟨h.transfer.handler, h.transfer.ourPort⟩, h.started, h.state, h.serverIP, h.configured,
      fun _ => ⟨rfl, rfl, hbroadcast, hframe.trans (udpFrame_contents _ _ _ _ _ _ _ _)⟩⟩,
      fun hwait => ⟨hip, hframe.trans (h.slot hwait).contents.symm⟩⟩
  · rw [tftpSend_known hip hbroadcast hether]
    exact h.aside (hsent _ _)

theorem netStartAgain_carries (h : TftpRun ip s) : Carries ip s (netStartAgain s) :=
  h.aside (netStartAgain_aside s)

theorem touch_carries (h : TftpRun ip s) (n : ℕ) : Carries ip s (s.touch n) :=
  h.aside (Recorded.touch s n).aside

theorem tftpPacket_ack {t : Tftp} (h : t.state = .oack ∨ t.state = .data) :
    tftpPacket t = be16 4 ++ be16 t.block := by
  unfold tftpPacket
  rcases h with h | h
  · rw [h]
  · rw [h]

/-- A transfer state that acknowledges the same block. -/
theorem TftpRun.acks (h : TftpRun ip s) (t : Tftp) (hport : t.ourPort = s.tftp.ourPort)
    (hstate : t.state = .oack ∨ t.state = .data)
    (hwait : s.arpWait.packetIP ≠ 0 → s.tftp.state ≠ .rrq ∧ t.block = s.tftp.block ∧
      t.serverPort = s.tftp.serverPort) : Carries ip s { s with tftp := t } := by
  refine h.follows ⟨rfl, rfl, rfl, rfl, rfl, Or.inl rfl, hport, Or.inr hstate, fun hip => ?_⟩
  obtain ⟨hrrq, hblock, hserver⟩ := hwait hip
  refine ⟨?_, hserver⟩
  rw [tftpPacket_ack hstate, tftpPacket_ack (h.state.resolve_left hrrq), hblock]

theorem storeBlock_aside (block : ℕ) (buf : Mem) (src len : ℕ) (s : NetSt) :
    Aside s (storeBlock block buf src len s) :=
  ⟨rfl, rfl, rfl, fun _ => rfl, rfl, ⟨_, rfl⟩, Or.inl rfl, Or.inl rfl⟩

theorem acceptBlock_carries (h : TftpRun ip s) (block : ℕ) (buf : Mem) (src len : ℕ) :
    Carries ip s (acceptBlock block buf src len s) := by
  have hlast : Carries ip s
      { s with tftp := { s.tftp with lastBlock := block }, timeHandler := .tftpTimeout } :=
    h.follows ⟨rfl, rfl, rfl, rfl, rfl, Or.inl rfl, rfl, h.state, fun _ => ⟨rfl, rfl⟩⟩
  have hstore := hlast.trans fun hrun =>
    hrun.aside (storeBlock_aside ((block + 2 ^ 32 - 1) % 2 ^ 32) buf src len _)
  have hsend := hstore.trans tftpSend_carries
  unfold acceptBlock
  dsimp only
  split
  · exact hsend.trans fun hrun =>
      hrun.aside ⟨rfl, rfl, rfl, fun _ => rfl, rfl, ⟨_, rfl⟩, Or.inl rfl, Or.inl rfl⟩
  · exact hsend

/-- The DATA case: while a packet waits the block is the present one. -/
theorem tftpData_carries (h : TftpRun ip s) {buf : Mem} {pkt src : ℕ} (len : ℕ)
    (hsrc : s.tftp.state = .rrq ∨ src = s.tftp.serverPort)
    (hwait : s.arpWait.packetIP ≠ 0 → s.tftp.state ≠ .rrq ∧ readU16 buf pkt = s.tftp.block) :
    Carries ip s (tftpData buf pkt src len s) := by
  have hserver : s.arpWait.packetIP ≠ 0 → src = s.tftp.serverPort := fun hip =>
    hsrc.resolve_left (hwait hip).1
  have htouch := touch_carries h (pkt + 2)
  have hfirst : Carries ip s { s.touch (pkt + 2) with
      tftp := firstBlock src (countBlock (readU16 buf pkt) s.tftp) } := by
    refine htouch.trans fun hrun => hrun.acks _ ?_ (Or.inr rfl) fun hip =>
      ⟨(hwait hip).1, ?_, hserver hip⟩
    · rw [countBlock_eq]
      rfl
    · rw [countBlock_eq]
      exact (hwait hip).2
  have hcount (hstate : ¬(s.tftp.state = .rrq ∨ s.tftp.state = .oack)) :
      Carries ip s { s.touch (pkt + 2) with tftp := countBlock (readU16 buf pkt) s.tftp } := by
    have hdata : s.tftp.state = .data := by
      rcases h.state with hs | hs | hs
      · exact absurd (Or.inl hs) hstate
      · exact absurd (Or.inr hs) hstate
      · exact hs
    rw [countBlock_eq]
    exact htouch.trans fun hrun => hrun.acks _ rfl (Or.inr hdata)
      fun hip => ⟨(hwait hip).1, (hwait hip).2, rfl⟩
  by_cases hstate : s.tftp.state = .rrq ∨ s.tftp.state = .oack
  · by_cases hone : readU16 buf pkt = 1
    · rw [hone] at hfirst
      rw [tftpData_first hstate hone]
      exact hfirst.trans fun hrun => acceptBlock_carries hrun _ _ _ _
    · rw [tftpData_again hstate hone]
      exact hfirst.trans netStartAgain_carries
  · by_cases hlast : readU16 buf pkt = s.tftp.lastBlock
    · rw [tftpData_repeat hstate hlast, ← hlast]
      exact hcount hstate
    · rw [tftpData_next hstate hlast]
      exact (hcount hstate).trans fun hrun => acceptBlock_carries hrun _ _ _ _

/-- The cases of the handler: while a packet waits the transfer stays where it is. -/
theorem tftpOp_carries (h : TftpRun ip s) {buf : Mem} {pkt src len : ℕ}
    (hsrc : s.tftp.state = .rrq ∨ src = s.tftp.serverPort)
    (hwait : s.arpWait.packetIP ≠ 0 → ¬(readU16 buf pkt = 6 ∧ s.tftp.state = .rrq ∨
      readU16 buf pkt = 3 ∧ 4 ≤ len ∧
        (s.tftp.state = .rrq ∨ readU16 buf (pkt + 2) ≠ s.tftp.block))) :
    Carries ip s (tftpOp buf pkt src len s) := by
  unfold tftpOp
  split
  · rename_i hop
    refine (h.acks { s.tftp with state := .oack, serverPort := src } rfl (Or.inl rfl)
      fun hip => ?_).trans tftpSend_carries
    have hrrq : s.tftp.state ≠ .rrq := fun hrrq => hwait hip (Or.inl ⟨hop, hrrq⟩)
    exact ⟨hrrq, rfl, hsrc.resolve_left hrrq⟩
  split
  · rename_i hop
    split
    · exact h.aside (Aside.refl s)
    refine tftpData_carries h _ hsrc fun hip => ?_
    have hnot := hwait hip
    rw [not_or, not_and, not_and, not_and] at hnot
    have hblock := not_or.mp (hnot.2 hop (by omega))
    exact ⟨hblock.1, not_not.mp hblock.2⟩
  split
  · refine Carries.trans (h.aside ?_) netStartAgain_carries
    exact ⟨rfl, rfl, rfl, fun _ => rfl, rfl, ⟨_, rfl⟩, Or.inl rfl, Or.inl rfl⟩
  · exact h.aside (Aside.refl s)

theorem tftpHandler_carries (h : TftpRun ip s) {buf : Mem} {pkt dest src len : ℕ}
    (hhandler : s.packetHandler = .tftp)
    (hwait : s.arpWait.packetIP ≠ 0 → ¬GoesOn buf pkt dest src len s) :
    Carries ip s (tftpHandler buf pkt dest src len s) := by
  rw [tftpHandler_eq]
  by_cases hours : dest = s.tftp.ourPort ∧
      (s.tftp.state = .rrq ∨ src = s.tftp.serverPort) ∧ 2 ≤ len
  · rw [if_pos hours]
    refine (touch_carries h (pkt + 2)).trans fun hrun => tftpOp_carries hrun hours.2.1 fun hip => ?_
    exact fun hgoes => hwait hip ⟨hhandler, hours.1, hours.2.1, hours.2.2, hgoes⟩
  · rw [if_neg hours]
    exact h.aside (Aside.refl s)

end

section

variable {ip : IPaddr} {s : NetSt}

theorem receiveUdp_carries (h : TftpRun ip s) {buf : Mem} {hdr : ℕ}
    (hwait : s.arpWait.packetIP ≠ 0 → ¬GoesOn buf (hdr + ipHdrSize) (readU16 buf (hdr + 22))
      (readU16 buf (hdr + 20)) ((udpLen buf hdr + 2 ^ 32 - 8) % 2 ^ 32) s) :
    Carries ip s (receiveUdp buf hdr s) := by
  unfold receiveUdp callHandler
  refine (h.aside (aside_record s s.sent { s.rx with
    udpProtos := s.rx.udpProtos ++ [buf (hdr + 9)] })).trans fun hrun => ?_
  split
  · exact tftpHandler_carries hrun ‹_› hwait
  · exact absurd ‹_› h.transfer.not_ping
  · exact hrun.aside (Aside.refl _)
  · exact hrun.aside (Aside.refl _)

/-- A frame without an ARP header in a TFTP run. -/
theorem netReceive_carries (ping : Bool) {buf : Mem} {len : ℕ} (h : TftpRun ip s)
    (harp : arpOffset buf len = none) (hfits : FrameFits ping buf len s) :
    Carries ip s (netReceive ping buf len s) := by
  have hport : 0 ≠ s.tftp.ourPort := Nat.ne_of_lt h.transfer.ourPort
  obtain ⟨rx, hlimit, heq | ⟨hdr, heq⟩ | ⟨hdr, hoffset, heq⟩⟩ := netReceive_cases ping s harp
  · rw [heq]
    exact h.aside (aside_record s s.sent rx)
  · rw [heq]
    exact (h.aside (aside_record s s.sent rx)).trans fun hrun =>
      hrun.aside (receiveRarp_aside _ _ _ fun _ => hport)
  · rw [heq]
    refine (h.aside (aside_record s s.sent rx)).trans fun hrun => ?_
    by_cases hudp : UdpReached ping buf hdr len { s with rx := rx }
    · rw [(receiveIp_eq ping hlimit hrun.transfer).1 hudp]
      exact receiveUdp_carries hrun fun hip => hfits.transfer hip hdr hoffset hudp
    · rw [(receiveIp_eq ping hlimit hrun.transfer).2 hudp]
      exact hrun.aside (Aside.refl _)

/-- The reply that a TFTP packet waits for. -/
theorem arpReply_delivers (h : TftpRun ip s) {buf : Mem} {arp : ℕ}
    (hpending : s.arpWait.packetIP ≠ 0) (hsender : readIP buf (arp + 14) = s.arpWait.replyIP)
    (hmac : readEther buf (arp + 8) ≠ netEtherNullAddr) :
    TftpRun ip (arpReply buf arp s) ∧
      Delivered (readEther buf (arp + 8)) s (arpReply buf arp s) := by
  obtain ⟨hserver, _, hbroadcast, hcontents⟩ := h.slot hpending
  have hwaits : ¬(s.arpWait.packetIP = 0 ∨ s.arpWait.packetMAC = .null) := by
    rw [hserver]
    exact not_or.mpr ⟨hpending, by decide⟩
  have hsave : saveMac (readEther buf (arp + 8)) s =
      { s with serverEther := readEther buf (arp + 8) } := by
    unfold saveMac
    rw [hserver]
  have hip : s.serverIP ≠ 0 := h.serverIP ▸ h.configured
  unfold arpReply
  dsimp only
  rw [if_neg hwaits, if_pos hsender, hsave, if_pos h.started]
  dsimp only
  rw [tftpSend_known]
  · exact ⟨⟨⟨h.transfer.handler, h.transfer.ourPort⟩, h.started, h.state, h.serverIP, h.configured,
      fun hwait => absurd rfl hwait⟩,
      ⟨_, rfl, rfl, (udpFrame_contents _ s _ _ _ _ _ _).trans hcontents.symm⟩, rfl⟩
  · exact hip
  · exact hbroadcast
  · exact hmac

theorem netReceive_delivers (ping : Bool) (h : TftpRun ip s) {buf : Mem} {arp len : ℕ}
    (harp : arpOffset buf len = some arp) (hanswer : AnswersWait buf arp len s)
    (hmac : readEther buf (arp + 8) ≠ netEtherNullAddr) :
    TftpRun ip (netReceive ping buf len s) ∧
      Delivered (readEther buf (arp + 8)) s (netReceive ping buf len s) := by
  obtain ⟨rx, heq⟩ := netReceive_arp ping s harp
  obtain ⟨⟨hlength, hhardware, hprotocol, hhardwareLength, hprotocolLength, hconfigured, htarget,
    hoperation⟩, hpending, hknown, hsender⟩ := hanswer
  have hanswer' : AnswersWait buf arp len { s with rx := rx } :=
    ⟨⟨hlength, hhardware, hprotocol, hhardwareLength, hprotocolLength, hconfigured, htarget,
      hoperation⟩, hpending, hknown, hsender⟩
  have htouch := ((h.aside (aside_record s s.sent rx)).trans fun hrun =>
    touch_carries hrun (arp + arpHdrSize)).run
  obtain ⟨hrun, hsent, hdone⟩ := arpReply_delivers htouch hpending hsender hmac
  rw [heq, receiveArp_answered hanswer']
  exact ⟨hrun, hsent, hdone⟩

theorem runTimeHandler_carries (h : TftpRun ip s) : Carries ip s (runTimeHandler s) := by
  have hnull : Carries ip s { s with timeHandler := .null } :=
    h.aside ⟨rfl, rfl, rfl, fun _ => rfl, rfl, ⟨_, rfl⟩, Or.inl rfl, Or.inr (Or.inl rfl)⟩
  have hstate : ∀ t, Carries ip s { s with timeHandler := .null, netState := t } := fun t =>
    h.aside ⟨rfl, rfl, rfl, fun _ => rfl, rfl, ⟨_, rfl⟩, Or.inl rfl, Or.inr (Or.inl rfl)⟩
  unfold runTimeHandler
  dsimp only
  split
  · exact h.aside (Aside.refl s)
  · unfold tftpTimeout
    dsimp only
    split
    · refine Carries.trans (h.aside ?_) netStartAgain_carries
      exact ⟨rfl, rfl, rfl, fun _ => rfl, rfl, ⟨_, rfl⟩, Or.inl rfl, Or.inr (Or.inl rfl)⟩
    · refine Carries.trans (h.follows ?_) tftpSend_carries
      exact ⟨rfl, rfl, rfl, rfl, rfl, Or.inl rfl, rfl, h.state, fun _ => ⟨rfl, rfl⟩⟩
  · exact hstate .restart
  · exact hstate .fail

theorem turnEnd_carries (ctrlc arpExpired timeExpired : Bool) (h : TftpRun ip s) :
    Carries ip s (turnEnd ctrlc arpExpired timeExpired s).2 := by
  have harp := h.aside (arpTimeoutCheck_aside arpExpired s)
  have hboth : Carries ip s (if timeExpired then runTimeHandler (arpTimeoutCheck arpExpired s)
      else arpTimeoutCheck arpExpired s) := by
    split
    · exact harp.trans runTimeHandler_carries
    · exact harp
  unfold turnEnd
  split
  · exact h.aside (Aside.refl s)
  · dsimp only
    split <;> exact hboth

end

/-- The state in a ping run. -/
structure PingRun (s : NetSt) : Prop where
  handler : s.packetHandler ≠ .tftp
  time : s.timeHandler ≠ .tftpTimeout
  slot : s.arpWait.packetIP ≠ 0 → s.arpWait.packetMAC = .pingMac

theorem PingRun.aside {s u : NetSt} (h : PingRun s) (hu : Aside s u) : PingRun u := by
  refine ⟨?_, ?_, fun hip => ?_⟩
  · rcases hu.handler with hh | hh
    · rw [hh]
      exact h.handler
    · rw [hh]
      decide
  · rcases hu.time with ht | ht | ht
    · rw [ht]
      exact h.time
    · rw [ht]
      decide
    · rw [ht]
      decide
  · rw [hu.packetIP] at hip
    exact hu.packetMAC.trans (h.slot hip)

theorem turnEnd_aside (ctrlc arpExpired timeExpired : Bool) {s : NetSt} (h : PingRun s) :
    Aside s (turnEnd ctrlc arpExpired timeExpired s).2 := by
  have harp := arpTimeoutCheck_aside arpExpired s
  have hboth : Aside s (if timeExpired then runTimeHandler (arpTimeoutCheck arpExpired s)
      else arpTimeoutCheck arpExpired s) :=
    (harp.trans (runTimeHandler_aside (h.aside harp).time)).ite harp
  unfold turnEnd
  split
  · exact Aside.refl s
  · dsimp only
    split <;> exact hboth

/-- The request of a TFTP run; with a broadcast address nothing waits. -/
theorem tftpSend_opens {ip : IPaddr} {s : NetSt} (htransfer : InTransfer s)
    (hstarted : s.tftpStarted = true) (hstate : s.tftp.state = .rrq) (hserver : s.serverIP = ip)
    (hip : ip ≠ 0) (hether : s.serverEther = netEtherNullAddr)
    (hslot : s.arpWait.packetIP ≠ 0 → ip ≠ 0xFFFFFFFF#32) :
    TftpRun ip (tftpSend s) ∧ (tftpSend s).tftp.state = .rrq := by
  subst hserver
  by_cases hbroadcast : s.serverIP = 0xFFFFFFFF#32
  · obtain ⟨fr, heq⟩ := tftpSend_broadcast hbroadcast
    rw [heq]
    exact ⟨⟨⟨htransfer.handler, htransfer.ourPort⟩, hstarted, Or.inl hstate, rfl, hip,
      fun hwait => absurd hbroadcast (hslot hwait)⟩, hstate⟩
  · obtain ⟨reply, frame, size, fs, heq, hframe⟩ := netSendUDPPacket_defers s.tftp.serverPort
      s.tftp.ourPort (tftpPacket s.tftp) hip hbroadcast hether
    unfold tftpSend
    rw [heq]
    exact ⟨⟨⟨htransfer.handler, htransfer.ourPort⟩, hstarted, Or.inl hstate, rfl, hip, fun _ =>
      ⟨rfl, rfl, hbroadcast, hframe.trans (udpFrame_contents _ _ _ _ _ _ _ _)⟩⟩, hstate⟩

theorem tftpStart_opens {ip : IPaddr} (clock : ℕ) {s : NetSt} (hserver : s.serverIP = ip)
    (hip : ip ≠ 0) (hslot : s.arpWait.packetIP ≠ 0 → ip ≠ 0xFFFFFFFF#32) :
    TftpRun ip (tftpStart clock s) ∧ (tftpStart clock s).tftp.state = .rrq := by
  have hport : 0 < 1024 + clock % 3072 := by omega
  unfold tftpStart
  exact tftpSend_opens ⟨Or.inl rfl, hport⟩ rfl rfl hserver hip rfl hslot

/-- The start of a TFTP run, or its restart. -/
theorem netRestart_tftp {b : Board} {clock : ℕ} {s : NetSt}
    (hslot : s.arpWait.packetIP ≠ 0 → b.serverip ≠ 0xFFFFFFFF#32)
    (hready : (netRestart .tftp b clock s).1 = true) :
    TftpRun b.serverip (netRestart .tftp b clock s).2 ∧
      Opened .tftp (netRestart .tftp b clock s).2 := by
  have hsize {t : NetSt} (h : TftpRun b.serverip t ∧ t.tftp.state = .rrq) :
      TftpRun b.serverip { t with xferSize := 0 } ∧ Opened .tftp { t with xferSize := 0 } := by
    have haside : Aside t { t with xferSize := 0 } :=
      ⟨rfl, rfl, rfl, fun _ => rfl, rfl, ⟨_, rfl⟩, Or.inl rfl, Or.inl rfl⟩
    have hrun := (h.1.aside haside).run
    exact ⟨hrun, fun hwait => ⟨h.2, (hrun.slot hwait).contents⟩⟩
  unfold netRestart at hready ⊢
  dsimp only at hready ⊢
  split at hready
  · rename_i hprereq
    rw [if_pos hprereq]
    have hip : b.serverip ≠ 0 := by
      unfold netCheckPrereq at hprereq
      simp only [Bool.and_eq_true, bne_iff_ne] at hprereq
      exact hprereq.1.1
    exact hsize (tftpStart_opens clock rfl hip hslot)
  · exact absurd hready (by simp)

theorem netRestart_ping {b : Board} {clock : ℕ} {s : NetSt}
    (hready : (netRestart .ping b clock s).1 = true) :
    PingRun (netRestart .ping b clock s).2 ∧ Opened .ping (netRestart .ping b clock s).2 := by
  unfold netRestart at hready ⊢
  dsimp only at hready ⊢
  split at hready
  · rename_i hprereq
    rw [if_pos hprereq]
    refine ⟨⟨?_, ?_, fun _ => rfl⟩, fun _ => ⟨s.ipId, s.pingSeqNo, rfl⟩⟩
    · show RxHandler.ping ≠ .tftp
      decide
    · show TimeHandler.pingTimeout ≠ .tftpTimeout
      decide
  · exact absurd hready (by simp)

def InRun (b : Board) (s : NetSt) : Proto → Prop
  | .tftp => TftpRun b.serverip s
  | .ping => PingRun s

theorem netRestart_opens {protocol : Proto} {b : Board} {clock : ℕ} {s : NetSt}
    (hslot : protocol = .tftp → s.arpWait.packetIP ≠ 0 → b.serverip ≠ 0xFFFFFFFF#32)
    (hready : (netRestart protocol b clock s).1 = true) :
    InRun b (netRestart protocol b clock s).2 protocol ∧
      Opened protocol (netRestart protocol b clock s).2 := by
  cases protocol with
  | tftp => exact netRestart_tftp (hslot rfl) hready
  | ping => exact netRestart_ping hready

/-- NetLoop begins with nothing waiting. -/
theorem netLoopStart_opens {protocol : Proto} {b : Board} {clock : ℕ} {ready : Bool} {s : NetSt}
    (hready : (netLoopStart protocol b clock ready s).1 = true) :
    InRun b (netLoopStart protocol b clock ready s).2 protocol ∧
      Opened protocol (netLoopStart protocol b clock ready s).2 := by
  unfold netLoopStart at hready ⊢
  dsimp only at hready ⊢
  split at hready
  · rename_i hinit
    rw [if_pos hinit]
    exact netRestart_opens (fun _ hwait => absurd rfl hwait) hready
  · exact absurd hready (by simp)

/-- A received frame in a run. -/
theorem inRun_receive {protocol : Proto} {b : Board} {s : NetSt} (ping : Bool) {buf : Mem} {len : ℕ}
    (h : InRun b s protocol) (hfits : FrameFits ping buf len s) :
    InRun b (netReceive ping buf len s) protocol ∧ FrameKept ping buf len s := by
  have hother : ∀ arp, arpOffset buf len = some arp → ¬AnswersWait buf arp len s →
      WaitUnchanged s (netReceive ping buf len s) := fun arp harp hnot =>
    (netReceive_unanswered ping harp hnot).unchanged
  cases protocol with
  | tftp =>
    have hrun : TftpRun b.serverip s := h
    have hanswer : ∀ arp, arpOffset buf len = some arp → AnswersWait buf arp len s →
        TftpRun b.serverip (netReceive ping buf len s) ∧
          Delivered (readEther buf (arp + 8)) s (netReceive ping buf len s) :=
      fun arp harp hans => netReceive_delivers ping hrun harp hans (hfits.answer arp harp hans).2
    refine ⟨?_, fun arp harp hans => (hanswer arp harp hans).2, hother, fun harp =>
      (netReceive_carries ping hrun harp hfits).waits⟩
    cases harp : arpOffset buf len with
    | none => exact (netReceive_carries ping hrun harp hfits).run
    | some arp =>
      by_cases hans : AnswersWait buf arp len s
      · exact (hanswer arp harp hans).1
      · exact (hrun.aside (netReceive_unanswered ping harp hans).aside).run
  | ping =>
    have hrun : PingRun s := h
    -- what waits is the echo request, so no frame that fits answers it
    have hnot : ∀ arp, arpOffset buf len = some arp → ¬AnswersWait buf arp len s := by
      intro arp harp hans
      have hmac := (hfits.answer arp harp hans).1
      rw [hrun.slot hans.pending] at hmac
      exact absurd hmac (by decide)
    refine ⟨?_, fun arp harp hans => absurd hans (hnot arp harp), hother, fun harp =>
      (netReceive_aside ping harp hrun.handler).stillWaits⟩
    cases harp : arpOffset buf len with
    | none => exact hrun.aside (netReceive_aside ping harp hrun.handler)
    | some arp => exact hrun.aside (netReceive_unanswered ping harp (hnot arp harp)).aside

/-- The end of a turn in a run. -/
theorem inRun_turn {protocol : Proto} {b : Board} {s : NetSt} (ctrlc arpExpired timeExpired : Bool)
    (h : InRun b s protocol) :
    InRun b (turnEnd ctrlc arpExpired timeExpired s).2 protocol ∧
      StillWaits s (turnEnd ctrlc arpExpired timeExpired s).2 := by
  cases protocol with
  | tftp =>
    have hcarries := turnEnd_carries ctrlc arpExpired timeExpired h
    exact ⟨hcarries.run, hcarries.waits⟩
  | ping =>
    have haside := turnEnd_aside ctrlc arpExpired timeExpired h
    exact ⟨PingRun.aside h haside, haside.stillWaits⟩

theorem inRun_notBroadcast {protocol : Proto} {b : Board} {s : NetSt} (h : InRun b s protocol)
    (htftp : protocol = .tftp) (hwait : s.arpWait.packetIP ≠ 0) :
    b.serverip ≠ 0xFFFFFFFF#32 := by
  subst htftp
  have hrun : TftpRun b.serverip s := h
  exact hrun.serverIP ▸ (hrun.slot hwait).notBroadcast

def MachineInv (m : Machine) : Prop :=
  ∀ protocol b, m.run = some (protocol, b) → InRun b m.net protocol

/-- One event keeps the invariant and does what is wanted of it. -/
theorem next_deferred (ping : Bool) (m : Machine) (e : NetEvent) (h : MachineInv m)
    (hfits : DeferredFits ping m e) : MachineInv (m.next ping e) ∧ DeferredOk ping m e := by
  obtain ⟨s, run⟩ := m
  cases e with
  | netLoop c =>
    cases run with
    | some r => exact ⟨h, fun hnone => absurd hnone (by simp)⟩
    | none =>
      constructor
      · intro protocol b hrun
        dsimp only [Machine.next] at hrun ⊢
        split at hrun
        · rename_i hready
          obtain ⟨rfl, rfl⟩ := Prod.mk.inj (Option.some.inj hrun)
          exact (netLoopStart_opens hready).1
        · exact absurd hrun (by simp)
      · intro _ hrun
        dsimp only [Machine.next] at hrun ⊢
        split at hrun
        · exact (netLoopStart_opens ‹_›).2
        · exact absurd rfl hrun
  | receive buf len =>
    cases run with
    | none => exact ⟨h, fun hnone => absurd rfl hnone⟩
    | some r =>
      have hreceive := inRun_receive ping (h r.1 r.2 rfl) (hfits (by simp))
      refine ⟨fun protocol b hrun => ?_, fun _ => hreceive.2⟩
      obtain ⟨rfl, rfl⟩ := Prod.mk.inj (Option.some.inj hrun)
      exact hreceive.1
  | turn ctrlc arpExpired timeExpired clock =>
    cases run with
    | none => exact ⟨h, fun _ _ hrun => absurd hrun (by simp)⟩
    | some r =>
      have hturn := inRun_turn ctrlc arpExpired timeExpired (h r.1 r.2 rfl)
      obtain ⟨protocol, b⟩ := r
      dsimp only at hturn
      unfold Machine.next DeferredOk
      dsimp only
      generalize turnEnd ctrlc arpExpired timeExpired s = r at hturn
      obtain ⟨finish, t⟩ := r
      have hrestart (hready : (netRestart protocol b clock t).1 = true) :=
        netRestart_opens (inRun_notBroadcast hturn.1) hready
      refine ⟨fun protocol' b' hrun => ?_, fun protocol' b' hrun => ?_⟩
      · cases finish with
        | again =>
          obtain ⟨rfl, rfl⟩ := Prod.mk.inj (Option.some.inj hrun)
          exact hturn.1
        | restart =>
          dsimp only at hrun ⊢
          split at hrun
          · obtain ⟨rfl, rfl⟩ := Prod.mk.inj (Option.some.inj hrun)
            exact (hrestart ‹_›).1
          · exact absurd hrun (by simp)
        | ret rc => exact absurd hrun (by simp)
      · obtain ⟨rfl, rfl⟩ := Prod.mk.inj (Option.some.inj hrun)
        cases finish with
        | again => exact hturn.2
        | restart => exact fun hready => (hrestart hready).2
        | ret rc => trivial

/-- An event of the present run that does not answer the waiting packet. -/
def KeepsWaiting (m : Machine) : NetEvent → Prop
  | .netLoop _ => m.run ≠ none
  | .receive buf len => m.run ≠ none ∧
      ∀ arp, arpOffset buf len = some arp → ¬AnswersWait buf arp len m.net
  | .turn ctrlc arpExpired timeExpired _ => m.run ≠ none ∧
      (turnEnd ctrlc arpExpired timeExpired m.net).1 = .again

theorem DeferredOk.waits {ping : Bool} {m : Machine} {e : NetEvent} (h : DeferredOk ping m e)
    (hkeeps : KeepsWaiting m e) :
    StillWaits m.net (m.next ping e).net ∧ (m.next ping e).run = m.run := by
  have hsame : StillWaits m.net m.net := (Aside.refl m.net).stillWaits
  obtain ⟨s, run⟩ := m
  cases run with
  | none =>
    cases e with
    | netLoop c => exact absurd rfl hkeeps
    | receive buf len => exact absurd rfl hkeeps.1
    | turn ctrlc arpExpired timeExpired clock => exact absurd rfl hkeeps.1
  | some r =>
    cases e with
    | netLoop c => exact ⟨hsame, rfl⟩
    | receive buf len =>
      refine ⟨?_, rfl⟩
      have hframe : FrameKept ping buf len s := h (by simp)
      cases harp : arpOffset buf len with
      | none => exact hframe.other harp
      | some arp =>
        have hunchanged := (hframe.otherArp arp harp (hkeeps.2 arp harp)).arpWait
        intro hwait
        show (netReceive ping buf len s).arpWait.packetIP ≠ 0 ∧
          (netReceive ping buf len s).arpWait.txPacket.SameContents s.arpWait.txPacket
        rw [hunchanged]
        exact ⟨hwait, Frame.SameContents.refl _⟩
    | turn ctrlc arpExpired timeExpired clock =>
      have hturn := h r.1 r.2 rfl
      have hagain := hkeeps.2
      unfold Machine.next
      dsimp only at hturn hagain ⊢
      generalize turnEnd ctrlc arpExpired timeExpired s = t at hturn hagain
      obtain ⟨finish, t⟩ := t
      obtain rfl : finish = .again := hagain
      exact ⟨hturn, rfl⟩

/-- A packet waits until its answer. -/
theorem waits_run {ping : Bool} (events : List NetEvent) {m : Machine}
    (h : Every (Machine.next ping) (DeferredOk ping) m events)
    (hkeeps : Every (Machine.next ping) KeepsWaiting m events) :
    StillWaits m.net (events.foldl (Machine.next ping) m).net ∧
      (events.foldl (Machine.next ping) m).run = m.run := by
  induction events generalizing m with
  | nil => exact ⟨(Aside.refl m.net).stillWaits, rfl⟩
  | cons e events ih =>
    obtain ⟨hwaits, hrun⟩ := h.1.waits hkeeps.1
    obtain ⟨hwaits', hrun'⟩ := ih h.2 hkeeps.2
    exact ⟨hwaits.trans hwaits', hrun'.trans hrun⟩

/-- The frames sent for a reply bring a packet to mac. -/
def Brings (ping : Bool) (buf : Mem) (len : ℕ) (mac : Ether) (packet : Frame) (s : NetSt) : Prop :=
  ∃ fr, (netReceive ping buf len s).sent = s.sent ++ [fr] ∧ fr.dest = mac ∧
    fr.SameContents packet

/-- The packet waits for the Ethernet address of ip. -/
def Waits (ip : IPaddr) (packet : Frame) (s : NetSt) : Prop :=
  s.arpWait.packetIP = ip ∧ s.arpWait.txPacket.SameContents packet

/-- A packet whose receiver is unknown waits, and in a run whose frames all fit the first
answer sends it. -/
theorem deferred_packets_sent (ping : Bool) (s : NetSt) (events : List NetEvent)
    (hfits : Every (Machine.next ping) (DeferredFits ping) ⟨s, none⟩ events) :
    (∀ (t : NetSt) (dest : IPaddr) (dport sport : ℕ) (data : List Byte), dest ≠ 0 →
        dest ≠ 0xFFFFFFFF#32 → t.serverEther = netEtherNullAddr →
        Waits dest (udpFrame t t.serverEther dest dport sport data)
          (netSendUDPPacket dest dport sport data t)) ∧
      (∀ t : NetSt,
        Waits t.pingIP ⟨netEtherNullAddr, t.ourEther, protIp, pingBody t⟩ (pingSend t)) ∧
      Every (Machine.next ping) (DeferredOk ping) ⟨s, none⟩ events ∧
      ∀ before between buf len arp after,
        events = before ++ (between ++ .receive buf len :: after) →
        let m := before.foldl (Machine.next ping) ⟨s, none⟩
        let m' := between.foldl (Machine.next ping) m
        m.run ≠ none → m.net.arpWait.packetIP ≠ 0 →
          Every (Machine.next ping) KeepsWaiting m between →
          arpOffset buf len = some arp → AnswersWait buf arp len m'.net →
            Brings ping buf len (readEther buf (arp + 8)) m.net.arpWait.txPacket m'.net := by
  have hstart : MachineInv ⟨s, none⟩ := fun _ _ hrun => absurd hrun (by simp)
  have hall : Every (Machine.next ping) (DeferredOk ping) ⟨s, none⟩ events :=
    every_of_good (fun m e h hf => (next_deferred ping m e h hf).1)
      (fun m e h hf => (next_deferred ping m e h hf).2) events hstart hfits
  refine ⟨fun t dest dport sport data hdest hbroadcast hether => ?_,
    fun t => ⟨rfl, Frame.SameContents.refl _⟩, hall, ?_⟩
  · obtain ⟨reply, frame, size, fs, heq, hframe⟩ :=
      netSendUDPPacket_defers dport sport data hdest hbroadcast hether
    rw [heq]
    exact ⟨rfl, hframe⟩
  rintro before between buf len arp after rfl m m' hrun hwait hkeeps harp hanswer
  obtain ⟨_, hrest⟩ := every_append.mp hall
  obtain ⟨hbetween, hlast⟩ := every_append.mp hrest
  obtain ⟨hwaits, hrun'⟩ := waits_run between hbetween hkeeps
  obtain ⟨⟨fr, hsent, hdest, hcontents⟩, _⟩ := (hlast.1 (hrun' ▸ hrun)).answer arp harp hanswer
  exact ⟨fr, hsent, hdest, hcontents.trans (hwaits hwait).2⟩

/-- A command on the local board. -/
def localCall (protocol : Proto) : NetCall where
  protocol := protocol
  board := Board.local
  clock := 0
  ready := true
  loadAddr := 0x80100000
  bootFile := []
  noretry := false
  pingIP := Board.local.serverip

/-- The length of an Ethernet frame with an ARP packet. -/
def arpFrameLen : ℕ := etherHdrSize + arpHdrSize

theorem deferred_packets_sent_tftp :
    let events : List NetEvent := [.netLoop (localCall .tftp), .receive serverArpReply arpFrameLen]
    Every (Machine.next true) (DeferredFits true) ⟨NetSt.boot, none⟩ events ∧
      Every (Machine.next true) (DeferredOk true) ⟨NetSt.boot, none⟩ events := by
  have harp : ipOffset serverArpReply = none := by decide
  have hoffset : arpOffset serverArpReply arpFrameLen = some 14 := by decide
  have hfits : Every (Machine.next true) (DeferredFits true) ⟨NetSt.boot, none⟩
      [.netLoop (localCall .tftp), .receive serverArpReply arpFrameLen] := by
    refine ⟨trivial, fun _ => ⟨fun arp h _ => ?_, fun _ ip h => ?_⟩, trivial⟩
    · obtain rfl := Option.some.inj (hoffset.symm.trans h)
      exact ⟨rfl, by decide⟩
    · exact absurd (harp.symm.trans h) (by simp)
  exact ⟨hfits, (deferred_packets_sent true NetSt.boot _ hfits).2.2.1⟩

/-- Two ways to lose an echo request: before any TFTP run its answer sends nothing, and
after one it sends the read request of that run. -/
theorem echo_request_lost :
    ¬Every (Machine.next true) (DeferredOk true) ⟨NetSt.boot, none⟩
        [.netLoop (localCall .ping), .receive serverArpReply arpFrameLen] ∧
      ¬Every (Machine.next true) (DeferredOk true) ⟨NetSt.boot, none⟩
        [.netLoop (localCall .tftp), .receive serverArpReply arpFrameLen,
          .turn true false false 0, .netLoop (localCall .ping),
          .receive serverArpReply arpFrameLen] := by
  have hoffset : arpOffset serverArpReply arpFrameLen = some 14 := by decide
  constructor
  · rintro ⟨_, hreply, _⟩
    obtain ⟨⟨fr, hsent, _⟩, _⟩ := (hreply (by decide)).answer 14 hoffset
      ⟨⟨by decide, by decide, by decide, by decide, by decide, by decide, by decide, by decide⟩,
        by decide, by decide, by decide⟩
    have hlen := congrArg List.length hsent
    rw [List.length_append, List.length_singleton] at hlen
    exact absurd hlen (by decide)
  · rintro ⟨_, _, _, _, hreply, _⟩
    obtain ⟨⟨fr, hsent, _, hcontents⟩, _⟩ := (hreply (by decide)).answer 14 hoffset
      ⟨⟨by decide, by decide, by decide, by decide, by decide, by decide, by decide, by decide⟩,
        by decide, by decide, by decide⟩
    have hlast := congrArg (fun l => l.getLast?.map fun f => f.body.drop ipHdrSizeNoUdp) hsent
    rw [List.getLast?_concat, Option.map_some, hcontents.payload] at hlast
    exact absurd hlast (by decide)

end Iot7688.Net
