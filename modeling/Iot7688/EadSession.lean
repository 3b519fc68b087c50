import Iot7688.Ead

/-!
The daemon and a client with one session key, and a network between them that may give any
encrypted datagram to either side as often as it likes, with another header. Counters rise,
so that no message is taken twice; but the daemon takes its own messages for commands.
-/
namespace Iot7688.Ead

open Lib EadCrypt

/-- The client: its static variables of the encryption, and msgbuf. -/
structure Client where
  crypt : Crypt
  buf : EadMsg

/-- The buffer of send_command: type EAD_CMD_NORMAL, timeout ten, and strncpy of the
command. -/
def commandBuf (buf : EadMsg) (command : List Byte) : EadMsg :=
  { buf with
    type := 10
    data := (buf.data.copy sizeofEncrypted 3 fun i => [0, 0, 10].getD i 0).copy
      (sizeofEncrypted + 3) 1024 fun i => command.getD i 0 }

/-- send_command, with the message that is sent. -/
def sendCommand (c : Ciphers) (client : Client) (command : List Byte) : Client :=
  let r := eadEncryptMessage c client.crypt (commandBuf client.buf command)
    (BitVec.ofNat 32 (command.length + 4))
  ⟨r.1, r.2⟩

/-- The data of the message, as the string that it is. -/
def commandData (client : Client) (command : List Byte) : List Byte :=
  stringAt (commandBuf client.buf command).data (sizeofEncrypted + 3) (command.length + 1)

/-- A datagram is read into msgbuf and handle_cmd_data decrypts it. -/
def handleCmdData (c : Ciphers) (client : Client) (msg : EadMsg) : Client :=
  let r := eadDecryptMessage c client.crypt msg
  ⟨r.1, r.2.1⟩

/-- Both sides, and the data and messages of all commands that the client sent. -/
structure Net (srp : Srp) where
  server : State srp
  client : Client
  sent : List (List Byte × EadMsg)

/-- What the daemon encrypted. -/
def Event.reply? : Event → Option (List Byte × EadMsg)
  | .encrypted payload msg => some (payload, msg)
  | _ => none

def replies (log : List Event) : List (List Byte × EadMsg) := log.filterMap Event.reply?

/-- The messages that ead_encrypt_message of either side made. -/
def Net.produced {srp : Srp} (net : Net srp) : List EadMsg :=
  net.sent.map Prod.snd ++ (replies net.server.log).map Prod.snd

inductive Act (srp : Srp)
  /-- The client sends a command. -/
  | command (command : List Byte)
  /-- The network gives a packet of a length to the daemon, or a datagram to the client. -/
  | toServer (o : Outside srp) (pkt : EadPacket) (len : BitVec 32)
  | toClient (msg : EadMsg)

section

variable {srp : Srp} (cfg : Config)

/-- The next state, if the daemon does not crash. -/
def Act.next (net : Net srp) : Act srp → Option (Net srp)
  | .command cmd =>
      let client := sendCommand cfg.ciphers net.client cmd
      some { net with
        client := client
        sent := net.sent ++ [(commandData net.client cmd, client.buf)] }
  | .toServer o pkt len =>
      (handlePacket cfg o net.server pkt len).map fun server => { net with server := server }
  | .toClient msg => some { net with client := handleCmdData cfg.ciphers net.client msg }

/-- The hash of a message is right. -/
def Authentic (c : Ciphers) (key : Mem) (msg : EadMsg) : Prop :=
  0 < msg.len.toInt ∧ ∀ i, loadDigest (opened c key msg) i =
    (eadHashMessage c (opened c key msg) msg.len).1 i

/-- A packet to the daemon is a message of either side with another header; only such
messages have a right hash, and none of them is a proof for another login. -/
def Act.Allowed (net : Net srp) : Act srp → Prop
  | .command cmd => cmd.length + 92 < 2 ^ 31
  | .toServer _ pkt len =>
      (∃ m ∈ net.produced, len = 62 + m.len ∧
        ∀ i, i < m.len.toNat → pkt.msg.data i = m.data i) ∧
      (Authentic cfg.ciphers net.server.crypt.key pkt.msg →
        ∃ m ∈ net.produced, Holds pkt.msg m) ∧
      (pkt.msg.type.toInt = typeSendAuth → ∀ ts, net.server.ts = some ts →
        (srp.serverVerify ts.2 (bytesAt pkt.msg.data 0 20)).2 ≠ 0)
  | .toClient _ => True

/-- The daemon does not get a message of its own with three or more bytes of console data,
under a counter that is new to it. -/
def Act.NotReflected (net : Net srp) : Act srp → Prop
  | .toServer _ pkt _ => ∀ payload m, (payload, m) ∈ replies net.server.log →
      Holds pkt.msg m → payload.length ≤ 3 ∨
        (loadIv (opened cfg.ciphers net.server.crypt.key m)).toNat ≤ net.server.crypt.rxIv.toNat
  | _ => True

/-- A session: both sides have set the key and the login is over. -/
def session (skey : Mem) (server : State srp) (host : Host) (r : Crypt) (buf : EadMsg) : Net srp :=
  ⟨{ server with
      state := typeSendCmd
      crypt := eadSetKey cfg.host skey server.crypt
      log := [] }, ⟨eadSetKey host skey r, buf⟩, []⟩

end

section

variable {srp : Srp} {cfg : Config} {o : Outside srp} {s t : State srp} {pkt : EadMsg}

theorem executed_record (log : List Event) (e : Event) :
    executed (log ++ [e]) = executed log ++ e.command?.toList := by
  unfold executed
  rw [List.filterMap_append]
  cases e <;> rfl

theorem replies_record (log : List Event) (e : Event) :
    replies (log ++ [e]) = replies log ++ e.reply?.toList := by
  unfold replies
  rw [List.filterMap_append]
  cases e <;> rfl

/-- No command is run and nothing is encrypted. -/
def Quiet (s t : State srp) : Prop :=
  executed t.log = executed s.log ∧ replies t.log = replies s.log

theorem Quiet.refl (s : State srp) : Quiet s s := ⟨rfl, rfl⟩

theorem Quiet.trans {u : State srp} (h : Quiet s t) (h' : Quiet t u) : Quiet s u :=
  ⟨h'.1.trans h.1, h'.2.trans h.2⟩

theorem Quiet.record (h : Quiet s t) (e : Event) (hcommand : e.command? = none)
    (hreply : e.reply? = none) : Quiet s (t.record e) := by
  constructor
  · rw [State.record, executed_record, hcommand, h.1]
    exact List.append_nil _
  · rw [State.record, replies_record, hreply, h.2]
    exact List.append_nil _

theorem setState_quiet {nstate : ℤ} (h : setState cfg o s nstate = some t) :
    Quiet s t ∧ (t.state = s.state ∨ t.state = nstate) := by
  unfold setState at h
  split at h
  · cases h
    exact ⟨Quiet.refl _, .inl rfl⟩
  split at h
  · split at h
    · obtain ⟨ts, -, rfl⟩ := Option.map_eq_some_iff.mp h
      exact ⟨(Quiet.refl s).record (.closed ts.1) rfl rfl, .inr rfl⟩
    · cases h
      exact ⟨Quiet.refl _, .inr rfl⟩
  split at h
  · split at h
    · cases h
      exact ⟨Quiet.refl _, .inl rfl⟩
    · split at h
      · cases h
        exact ⟨(Quiet.refl s).record (.opened s.opens s.username) rfl rfl, .inr rfl⟩
      · cases h
        exact ⟨Quiet.refl _, .inl rfl⟩
  split at h
  · obtain ⟨ts, -, rfl⟩ := Option.map_eq_some_iff.mp h
    exact ⟨(Quiet.refl s).record (.generated ts.1 _) rfl rfl, .inr rfl⟩
  split at h
  · obtain ⟨ts, -, rfl⟩ := Option.map_eq_some_iff.mp h
    dsimp only
    split
    · exact ⟨Quiet.refl _, .inl rfl⟩
    · rename_i key hkey
      exact ⟨((Quiet.refl s).record (.gotKey ts.1 s.a key) rfl rfl).record (.setKey key) rfl rfl,
        .inr rfl⟩
  · cases h
    exact ⟨Quiet.refl _, .inr rfl⟩

theorem setState_reset_state (hstate : typeSetUsername ≤ s.state)
    (h : setState cfg o s typeSetUsername = some t) : t.state = typeSetUsername := by
  unfold setState at h
  split at h
  · cases h
    assumption
  · rw [if_pos (by omega)] at h
    split at h
    · obtain ⟨ts, -, rfl⟩ := Option.map_eq_some_iff.mp h
      rfl
    · cases h
      rfl

/-- A state in which no command is taken. -/
def Idle (state : ℤ) : Prop := typeSetUsername ≤ state ∧ state ≠ typeSendCmd

/-- What a handler does that runs no command: it is quiet, and does not ask for the last
state. -/
def Harmless (s : State srp) (r : Result srp) : Prop :=
  ∀ reply nstate t, r = some (reply, nstate, t) → Quiet s t ∧ Idle t.state ∧ Idle nstate

theorem handlePing_harmless (h : Idle s.state) : Harmless s (handlePing cfg s s.state) := by
  intro reply nstate t ht
  cases ht
  exact ⟨Quiet.refl s, h, h⟩

theorem handleSetUsername_harmless (h : typeSetUsername ≤ s.state) :
    Harmless s (handleSetUsername cfg o s pkt) := by
  intro reply nstate t ht
  obtain ⟨t, hreset, heq⟩ := Option.map_eq_some_iff.mp ht
  cases heq
  refine ⟨(setState_quiet hreset).1.record (.username _) rfl rfl, ?_, by decide, by decide⟩
  show Idle t.state
  rw [setState_reset_state h hreset]
  exact ⟨by decide, by decide⟩

theorem handleGetPrime_harmless (h : Idle s.state) : Harmless s (handleGetPrime s) := by
  intro reply nstate t ht
  unfold handleGetPrime at ht
  split at ht
  · cases ht
    exact ⟨Quiet.refl s, h, by decide, by decide⟩
  · cases ht

theorem handleSendA_harmless (h : Idle s.state) : Harmless s (handleSendA s pkt s.state) := by
  intro reply nstate t ht
  unfold handleSendA at ht
  dsimp only at ht
  split_ifs at ht
  · cases ht
    exact ⟨Quiet.refl s, h, h⟩
  · obtain ⟨b, hb, heq⟩ := Option.map_eq_some_iff.mp ht
    cases heq
    exact ⟨(Quiet.refl s).record (.received _) rfl rfl, h, by decide, by decide⟩

theorem handleSendAuth_harmless (h : Idle s.state)
    (hproof : ∀ ts, s.ts = some ts → (srp.serverVerify ts.2 (bytesAt pkt.data 0 20)).2 ≠ 0) :
    Harmless s (handleSendAuth s pkt) := by
  intro reply nstate t ht
  obtain ⟨ts, hts, heq⟩ := Option.map_eq_some_iff.mp ht
  dsimp only at heq
  rw [if_pos (hproof ts hts)] at heq
  cases heq
  exact ⟨Quiet.refl s, h, by decide, by decide⟩

/-- A packet that is not a command in the last state. The network has no proof, so that
the daemon does not get into that state. -/
theorem handler_harmless {type size : ℤ} {run : State srp → Result srp}
    (hrun : handler cfg o pkt type = some (run, size)) (hstate : typeSetUsername ≤ s.state)
    (htype : typeGetPrime ≤ type → s.state = type) (hping : type = typePing → Idle s.state)
    (hcmd : type ≠ typeSendCmd)
    (hproof : type = typeSendAuth → ∀ ts, s.ts = some ts →
      (srp.serverVerify ts.2 (bytesAt pkt.data 0 20)).2 ≠ 0) : Harmless s (run s) := by
  have hidle (hle : typeGetPrime ≤ type) : Idle s.state := by
    rw [htype hle]
    exact ⟨Int.le_trans (by decide) hle, hcmd⟩
  unfold handler at hrun
  split_ifs at hrun with h0 h2 h4 h6 h8
  · cases hrun
    exact handlePing_harmless (hping h0)
  · cases hrun
    exact handleSetUsername_harmless hstate
  · cases hrun
    exact handleGetPrime_harmless (hidle (Int.le_of_eq h4.symm))
  · cases hrun
    exact handleSendA_harmless (hidle (by rw [h6]; decide))
  · cases hrun
    exact handleSendAuth_harmless (hidle (by rw [h8]; decide)) (hproof h8)

/-- Nothing is done but replies, which are good messages under the key. -/
structure Replied (c : Ciphers) (s t : State srp) : Prop where
  state : t.state = s.state
  key : t.crypt.key = s.crypt.key
  rxIv : t.crypt.rxIv = s.crypt.rxIv
  executed : executed t.log = executed s.log
  replies : ∀ x ∈ replies t.log, x ∈ replies s.log ∨
    ∃ iv, Sealed c s.crypt.key x.2 iv (fun i => x.1.getD i 0) x.1.length

theorem Replied.refl (c : Ciphers) (s : State srp) : Replied c s s :=
  ⟨rfl, rfl, rfl, rfl, fun _ hx => .inl hx⟩

theorem Replied.trans {c : Ciphers} {u : State srp} (h : Replied c s t) (h' : Replied c t u) :
    Replied c s u := by
  refine ⟨h'.state.trans h.state, h'.key.trans h.key, h'.rxIv.trans h.rxIv,
    h'.executed.trans h.executed, fun x hx => ?_⟩
  rcases h'.replies x hx with hx | ⟨iv, hsealed⟩
  · exact h.replies x hx
  · exact .inr ⟨iv, h.key ▸ hsealed⟩

theorem Replied.sent {c : Ciphers} (h : Replied c s t) (msg : EadMsg) :
    Replied c s (t.record (.sent msg)) := by
  refine ⟨h.state, h.key, h.rxIv, ?_, fun x hx => ?_⟩
  · exact ((Quiet.refl t).record (.sent msg) rfl rfl).1.trans h.executed
  · rw [((Quiet.refl t).record (.sent msg) rfl rfl).2] at hx
    exact h.replies x hx

section

variable (hinv : ∀ key b, cfg.ciphers.rijndaelDecrypt key (cfg.ciphers.rijndaelEncrypt key b) = b)

include hinv

theorem encryptReply_replied (s : State srp) {payload : List Byte}
    (hlen : payload.length + 88 < 2 ^ 31) :
    Replied cfg.ciphers s (encryptReply cfg s payload) := by
  refine ⟨rfl, rfl, rfl, ?_, fun x hx => ?_⟩
  · unfold encryptReply State.record
    rw [executed_record]
    exact List.append_nil _
  · unfold encryptReply State.record at hx
    rw [replies_record] at hx
    rcases List.mem_append.mp hx with hx | hx
    · exact .inl hx
    · obtain rfl := List.mem_singleton.mp hx
      exact .inr ⟨_, eadEncryptMessage_place hinv s.crypt s.pktbuf hlen⟩

theorem streamConsole_replied (s : State srp) (console : List (List Byte)) :
    Replied cfg.ciphers s (streamConsole cfg s console) := by
  induction console generalizing s with
  | nil => exact Replied.refl _ s
  | cons bytes rest ih =>
    have hlen : (0 :: bytes.take 1024).length + 88 < 2 ^ 31 := by
      rw [List.length_cons, List.length_take]
      omega
    exact ((encryptReply_replied hinv s hlen).sent _).trans (ih _)

/-- A command message runs nothing, or its data. -/
theorem handleSendCmd_cases {n nstate : ℤ} {reply : Bool}
    (ht : handleSendCmd cfg o s pkt n = some (reply, nstate, t)) : nstate = n ∧
    (Replied cfg.ciphers { s with crypt := (eadDecryptMessage cfg.ciphers s.crypt pkt).1 } t ∨
      ∃ datalen : ℕ, ((eadDecryptMessage cfg.ciphers s.crypt pkt).2.2 - 3).toInt = datalen ∧
        0 < datalen ∧ Replied cfg.ciphers (State.record
          { s with crypt := (eadDecryptMessage cfg.ciphers s.crypt pkt).1 }
          (.system (stringAt (Function.update (eadDecryptMessage cfg.ciphers s.crypt pkt).2.1.data
            (28 + datalen) 0) 28 datalen))) t) := by
  unfold handleSendCmd at ht
  dsimp only at ht
  split at ht
  · cases ht
    exact ⟨rfl, .inl (Replied.refl _ _)⟩
  · rename_i hpos
    have hdone (u : State srp) : Replied cfg.ciphers u (encryptReply cfg u [1]) :=
      encryptReply_replied hinv u (by decide)
    have hlen : ((eadDecryptMessage cfg.ciphers s.crypt pkt).2.2 - 3).toInt =
        (((eadDecryptMessage cfg.ciphers s.crypt pkt).2.2 - 3).toInt.toNat : ℤ) := by omega
    split at ht
    · split at ht
      · have hstream := streamConsole_replied hinv (State.record
          { s with crypt := (eadDecryptMessage cfg.ciphers s.crypt pkt).1 }
          (.system (stringAt (Function.update (eadDecryptMessage cfg.ciphers s.crypt pkt).2.1.data
            (28 + ((eadDecryptMessage cfg.ciphers s.crypt pkt).2.2 - 3).toInt.toNat) 0) 28
            ((eadDecryptMessage cfg.ciphers s.crypt pkt).2.2 - 3).toInt.toNat))) o.console
        split at ht
        · cases ht
          exact ⟨rfl, .inr ⟨_, hlen, by omega, hstream⟩⟩
        · cases ht
          exact ⟨rfl, .inr ⟨_, hlen, by omega, hstream.trans (hdone _)⟩⟩
      · cases ht
        exact ⟨rfl, .inl (Replied.refl _ _)⟩
    · split at ht
      · cases ht
        exact ⟨rfl, .inr ⟨_, hlen, by omega, hdone _⟩⟩
      · cases ht
        exact ⟨rfl, .inl (Replied.refl _ _)⟩
    · cases ht
      exact ⟨rfl, .inl (Replied.refl _ _)⟩

omit hinv

/-- Nothing happens that matters to commands. -/
def Untouched (s t : State srp) : Prop := Quiet s t ∧ t.state = s.state ∧ t.crypt = s.crypt

theorem handlePing_untouched {n nstate : ℤ} {reply : Bool}
    (ht : handlePing cfg s n = some (reply, nstate, t)) : Untouched s t ∧ nstate = n := by
  cases ht
  exact ⟨⟨Quiet.refl s, rfl, rfl⟩, rfl⟩

/-- The end of parse_message. -/
def finish (s : State srp) (reply : Bool) : State srp :=
  if reply then s.record (.sent s.pktbuf) else s

theorem finish_quiet (s : State srp) (reply : Bool) : Quiet s (finish s reply) := by
  unfold finish
  split
  · exact (Quiet.refl s).record (.sent s.pktbuf) rfl rfl
  · exact Quiet.refl s

theorem finish_fields (s : State srp) (reply : Bool) :
    (finish s reply).state = s.state ∧ (finish s reply).crypt = s.crypt := by
  unfold finish
  split <;> exact ⟨rfl, rfl⟩

theorem setState_of_state {nstate : ℤ} (hstate : s.state = nstate)
    (ht : setState cfg o s nstate = some t) : t = s := by
  subst hstate
  rw [setState_stay] at ht
  exact (Option.some.inj ht).symm

include hinv

/-- What a message does: nothing, something other than a command, or the command in the
last state. -/
theorem parseMessage_cases {len : ℤ} (hstate : typeSetUsername ≤ s.state)
    (hproof : pkt.type.toInt = typeSendAuth → ∀ ts, s.ts = some ts →
      (srp.serverVerify ts.2 (bytesAt pkt.data 0 20)).2 ≠ 0)
    (ht : parseMessage cfg o s pkt len = some t) :
    Untouched s t ∨ Quiet s t ∧ Idle t.state ∨
      s.state = typeSendCmd ∧ ∃ pktbuf reply t', handleSendCmd cfg o { s with pktbuf := pktbuf }
        pkt s.state = some (reply, s.state, t') ∧ t = finish t' reply := by
  unfold parseMessage at ht
  dsimp only at ht
  split_ifs at ht with htype hinstance
  · cases ht
    exact .inl ⟨Quiet.refl s, rfl, rfl⟩
  · cases ht
    exact .inl ⟨Quiet.refl s, rfl, rfl⟩
  · split at ht
    · cases ht
      exact .inl ⟨Quiet.refl s, rfl, rfl⟩
    · rename_i run size hrun
      split at ht
      · cases ht
        exact .inl ⟨Quiet.refl s, rfl, rfl⟩
      · split at ht
        · cases ht
        · rename_i reply nstate t' ht'
          rw [← finish] at ht
          obtain ⟨hfinish, hcrypt⟩ := finish_fields t' reply
          by_cases hcmd : pkt.type.toInt = typeSendCmd
          · have hlast : s.state = typeSendCmd := by
              rw [← hcmd]
              exact not_not.mp fun hne => htype ⟨by rw [hcmd]; decide, hne⟩
            rw [hcmd] at hrun
            cases hrun
            obtain ⟨hnstate, hdone⟩ := handleSendCmd_cases hinv ht'
            have hkeep : t'.state = s.state := by
              rcases hdone with hdone | ⟨_, _, _, hdone⟩
              · exact hdone.state
              · exact hdone.state
            obtain rfl := hnstate
            exact .inr (.inr ⟨hlast, _, reply, t', ht',
              setState_of_state (hfinish.trans hkeep) ht⟩)
          · by_cases hping : pkt.type.toInt = typePing ∧ s.state = typeSendCmd
            · rw [hping.1] at hrun
              cases hrun
              obtain ⟨⟨hquiet, hkeep, hsame⟩, hnstate⟩ := handlePing_untouched ht'
              obtain rfl := hnstate
              obtain rfl := setState_of_state (hfinish.trans hkeep) ht
              exact .inl ⟨hquiet.trans (finish_quiet t' reply), hfinish.trans hkeep,
                hcrypt.trans hsame⟩
            · have hbuf (pktbuf : EadMsg) :
                  Harmless { s with pktbuf := pktbuf } (run { s with pktbuf := pktbuf }) :=
                handler_harmless hrun hstate (fun hle => not_not.mp fun hne => htype ⟨hle, hne⟩)
                  (fun h => ⟨hstate, fun hlast => hping ⟨h, hlast⟩⟩) hcmd hproof
              obtain ⟨hquiet, hidle, hnidle⟩ := hbuf _ reply nstate t' ht'
              obtain ⟨hset, hwhere⟩ := setState_quiet ht
              refine .inr (.inl ⟨hquiet.trans ((finish_quiet t' reply).trans hset), ?_⟩)
              rcases hwhere with hwhere | hwhere
              · rw [hwhere, hfinish]
                exact hidle
              · rw [hwhere]
                exact hnidle

omit hinv

theorem handlePacket_cases {pkt : EadPacket} {len : BitVec 32}
    (ht : handlePacket cfg o s pkt len = some t) : t = s ∨
      ¬len < 62 + pkt.msg.len ∧ parseMessage cfg o s pkt.msg len.toInt = some t := by
  unfold handlePacket at ht
  split_ifs at ht with h1 h2 h3 h4 h5 h6 h7 h8
  · exact .inl (Option.some.inj ht).symm
  · exact .inl (Option.some.inj ht).symm
  · exact .inl (Option.some.inj ht).symm
  · exact .inl (Option.some.inj ht).symm
  · exact .inl (Option.some.inj ht).symm
  · exact .inl (Option.some.inj ht).symm
  · exact .inl (Option.some.inj ht).symm
  · exact .inl (Option.some.inj ht).symm
  · exact .inr ⟨h7, ht⟩

end

end

section

variable {c : Ciphers} {r : Crypt} {msg : EadMsg}

theorem eadCheckRxIv_rises {r r' : Crypt} {iv : BitVec 32} (h : eadCheckRxIv r iv = some r') :
    r.rxIv.toNat < iv.toNat ∧ r'.rxIv = iv := by
  unfold eadCheckRxIv at h
  split_ifs at h with hle
  cases h
  rw [BitVec.le_def] at hle
  exact ⟨by omega, rfl⟩

/-- The receiver's counter does not go back. -/
theorem eadDecryptMessage_rxIv (c : Ciphers) (r : Crypt) (msg : EadMsg) :
    r.rxIv.toNat ≤ (eadDecryptMessage c r msg).1.rxIv.toNat := by
  unfold eadDecryptMessage
  split
  · exact le_refl _
  · dsimp only
    split
    · exact le_refl _
    · split
      · exact le_refl _
      · rename_i r' hr
        obtain ⟨hlt, hiv⟩ := eadCheckRxIv_rises hr
        rw [← hiv] at hlt
        split
        · exact Nat.le_of_lt hlt
        · exact Nat.le_of_lt hlt

/-- A length that is negative as an int gives a negative result. -/
theorem toInt_datalen {len : BitVec 32} {k : ℕ} (hk : k < 2 ^ 31 - 65)
    (hlen : 2 ^ 32 ≤ len.toNat + 62) : (len - BitVec.ofNat 32 k - 3).toInt < 0 := by
  have htoNat : (len - BitVec.ofNat 32 k - 3).toNat = len.toNat - k - 3 := by
    rw [BitVec.toNat_sub, BitVec.toNat_sub, BitVec.toNat_ofNat, show (3 : BitVec 32).toNat = 3 from rfl]
    omega
  rw [BitVec.toInt_eq_toNat_cond, htoNat, if_neg (by omega)]
  omega

/-- Nothing is taken from a message whose hash is not right. -/
theorem authentic_of_datalen
    (hlen : msg.len.toNat < 2 ^ 31 ∨ 2 ^ 32 ≤ msg.len.toNat + 62)
    (h : 0 < ((eadDecryptMessage c r msg).2.2 - 3).toInt) : Authentic c r.key msg := by
  have hzero : ¬0 < ((0 : BitVec 32) - 3).toInt := by decide
  unfold eadDecryptMessage at h
  split at h
  · exact absurd h hzero
  · rename_i hne
    dsimp only at h
    split at h
    · exact absurd h hzero
    · rename_i hpad
      split at h
      · exact absurd h hzero
      · split at h
        · rename_i hhash
          refine ⟨?_, hhash⟩
          rcases hlen with hlen | hlen
          · rw [BitVec.toInt_eq_toNat_of_lt (by omega)]
            have hnat : msg.len.toNat ≠ 0 := fun hnat =>
              hne (.inl (BitVec.eq_of_toNat_eq hnat))
            omega
          · refine absurd h (Int.not_lt.mpr (Int.le_of_lt (toInt_datalen ?_ hlen)))
            unfold encPad at hpad
            unfold sizeofEncrypted
            omega
        · exact absurd h hzero

/-- The length of a packet leaves no room for a length that is only positive as an
unsigned. -/
theorem len_of_fits {len m pktlen : BitVec 32} (hm : m.toNat < 2 ^ 31) (hlen : len = 62 + m)
    (hfits : ¬len < 62 + pktlen) : pktlen.toNat < 2 ^ 31 ∨ 2 ^ 32 ≤ pktlen.toNat + 62 := by
  subst hlen
  rw [BitVec.lt_def, BitVec.toNat_add, BitVec.toNat_add, show (62 : BitVec 32).toNat = 62 from rfl]
    at hfits
  omega

theorem toInt_payload {n : ℕ} (hn : n < 2 ^ 31) (h : 0 < (BitVec.ofNat 32 n - 3).toInt) :
    (BitVec.ofNat 32 n - 3).toInt = (n - 3 : ℕ) := by
  have htoNat : (BitVec.ofNat 32 n - 3).toNat = (2 ^ 32 - 3 + n) % 2 ^ 32 := by
    rw [BitVec.toNat_sub, BitVec.toNat_ofNat, show (3 : BitVec 32).toNat = 3 from rfl]
    omega
  rw [BitVec.toInt_eq_toNat_cond, htoNat] at h ⊢
  split_ifs at h ⊢ <;> omega

/-- What the daemon takes out of a good message, unless the counter is old. -/
theorem datalen_of_sealed {iv : BitVec 32} {payload : Mem} {n : ℕ}
    (hsealed : Sealed c r.key msg iv payload n)
    (h : 0 < ((eadDecryptMessage c r msg).2.2 - 3).toInt) :
    r.rxIv.toNat < iv.toNat ∧ (eadDecryptMessage c r msg).1.rxIv = iv ∧
      ((eadDecryptMessage c r msg).2.2 - 3).toInt = (n - 3 : ℕ) ∧
      ∀ i, i < n → (eadDecryptMessage c r msg).2.1.data (25 + i) = payload i := by
  have hzero : ¬0 < ((0 : BitVec 32) - 3).toInt := by decide
  have hsize := hsealed.size
  have hsmall := hsealed.small
  unfold sizeofEncrypted at hsize
  rw [eadDecryptMessage_of_sealed hsealed] at h ⊢
  cases hr : eadCheckRxIv r iv with
  | none =>
    rw [hr] at h
    exact absurd h hzero
  | some r' =>
    rw [hr] at h
    obtain ⟨hlt, hiv⟩ := eadCheckRxIv_rises hr
    dsimp only at h ⊢
    refine ⟨hlt, hiv, toInt_payload (by omega) h, fun i hi => ?_⟩
    rw [fill_outside _ (by omega)]
    exact hsealed.bytes i hi

end

theorem bytesAt_shift (m : Mem) (a b n : ℕ) : bytesAt (m.shift a) b n = bytesAt m (a + b) n := by
  unfold bytesAt
  simp only [Mem.shift_apply, Nat.add_assoc]

/-- The string of a payload behind the three bytes of ead_msg_cmd. -/
theorem stringAt_payload {data payload : Mem} {n datalen : ℕ} (hn : datalen = n - 3)
    (h : ∀ i, i < n → data (25 + i) = payload i) :
    stringAt (Function.update data (28 + datalen) 0) 28 datalen = stringAt payload 3 (n - 3) := by
  unfold stringAt bytesAt
  rw [← hn]
  congr 1
  refine List.map_congr_left fun i hi => ?_
  have hlt := List.mem_range.mp hi
  rw [Function.update_of_ne (by omega), ← h (3 + i) (by omega)]
  congr 1
  omega

section

variable {srp : Srp} {cfg : Config} {skey : Mem} {net net' : Net srp}

/-- What the client's and the daemon's messages hold, and which commands the daemon has
taken: no message twice, and none with a counter that is still new to it. -/
structure Tracks (cfg : Config) (skey : Mem) (net : Net srp) : Prop where
  states : typeSetUsername ≤ net.server.state
  clientKey : net.client.crypt.key = skey
  serverKey : net.server.state = typeSendCmd → net.server.crypt.key = skey
  sent : ∀ x ∈ net.sent, ∃ iv payload n, Sealed cfg.ciphers skey x.2 iv payload n ∧
    x.1 = stringAt payload 3 (n - 3)
  replied : ∀ x ∈ replies net.server.log, ∃ iv,
    Sealed cfg.ciphers skey x.2 iv (fun i => x.1.getD i 0) x.1.length
  taken : ∃ taken : List ℕ, taken.Nodup ∧
    executed net.server.log = taken.filterMap (fun i => net.sent[i]?.map Prod.fst) ∧
    (∀ i ∈ taken, i < net.sent.length) ∧
    (net.server.state = typeSendCmd → ∀ i ∈ taken, ∀ x, net.sent[i]? = some x →
      (loadIv (opened cfg.ciphers skey x.2)).toNat ≤ net.server.crypt.rxIv.toNat)

theorem filterMap_range {α : Type*} (l : List α) :
    (List.range l.length).filterMap (l[·]?) = l := by
  induction l with
  | nil => rfl
  | cons a l ih =>
    rw [List.length_cons, List.range_succ_eq_map]
    simp only [List.filterMap_cons, List.getElem?_cons_zero, List.filterMap_map]
    exact congrArg (a :: ·) ih

/-- Places that are all different give at most the whole list. -/
theorem subperm_of_places {α : Type*} {l : List α} {places : List ℕ} (hnodup : places.Nodup)
    (hlt : ∀ i ∈ places, i < l.length) : (places.filterMap (l[·]?)).Subperm l := by
  obtain ⟨sub, hperm, hsub⟩ := List.subperm_of_subset hnodup
    (fun i hi => List.mem_range.mpr (hlt i hi))
  have hmap := hsub.filterMap (l[·]?)
  rw [filterMap_range] at hmap
  exact ⟨sub.filterMap (l[·]?), hperm.filterMap _, hmap⟩

theorem Tracks.subperm (h : Tracks cfg skey net) :
    (executed net.server.log).Subperm (net.sent.map Prod.fst) := by
  obtain ⟨taken, hnodup, hexecuted, hlt, -⟩ := h.taken
  rw [hexecuted]
  have hplaces : (taken.filterMap fun i => (net.sent.map Prod.fst)[i]?).Subperm
      (net.sent.map Prod.fst) := subperm_of_places hnodup (by simpa using hlt)
  simpa only [List.getElem?_map] using hplaces

/-- What both sides have encrypted is good under the key. -/
theorem Tracks.produced (h : Tracks cfg skey net) {m : EadMsg} (hm : m ∈ net.produced) :
    m.len.toNat < 2 ^ 31 := by
  rcases List.mem_append.mp hm with hm | hm
  · obtain ⟨x, hx, rfl⟩ := List.mem_map.mp hm
    obtain ⟨iv, payload, n, hsealed, -⟩ := h.sent x hx
    exact hsealed.small
  · obtain ⟨x, hx, rfl⟩ := List.mem_map.mp hm
    obtain ⟨iv, hsealed⟩ := h.replied x hx
    exact hsealed.small

theorem taken_snoc {α : Type*} {l : List α} {taken : List ℕ} (a : α)
    (hlt : ∀ i ∈ taken, i < l.length) {β : Type*} (f : α → β) :
    taken.filterMap (fun i => (l ++ [a])[i]?.map f) = taken.filterMap (fun i => l[i]?.map f) :=
  List.filterMap_congr fun i hi => by rw [List.getElem?_append_left (hlt i hi)]

section

variable (hinv : ∀ key b, cfg.ciphers.rijndaelDecrypt key (cfg.ciphers.rijndaelEncrypt key b) = b)

include hinv in
theorem Tracks.command (h : Tracks cfg skey net) {cmd : List Byte}
    (hlen : cmd.length + 92 < 2 ^ 31) :
    Tracks cfg skey { net with
      client := sendCommand cfg.ciphers net.client cmd
      sent := net.sent ++ [(commandData net.client cmd,
        (sendCommand cfg.ciphers net.client cmd).buf)] } := by
  obtain ⟨taken, hnodup, hexecuted, hlt, hiv⟩ := h.taken
  refine ⟨h.states, h.clientKey, h.serverKey, ?_, h.replied, taken, hnodup, ?_, ?_, ?_⟩
  · intro x hx
    rcases List.mem_append.mp hx with hx | hx
    · exact h.sent x hx
    · obtain rfl := List.mem_singleton.mp hx
      have hsealed := eadEncryptMessage_sealed hinv net.client.crypt
        (commandBuf net.client.buf cmd) (show cmd.length + 4 + 88 < 2 ^ 31 by omega)
      rw [h.clientKey] at hsealed
      refine ⟨_, _, _, hsealed, ?_⟩
      unfold commandData stringAt
      rw [bytesAt_shift]
      rfl
  · rw [taken_snoc _ hlt]
    exact hexecuted
  · intro i hi
    rw [List.length_append]
    exact Nat.lt_add_right _ (hlt i hi)
  · intro hstate i hi x hx
    rw [List.getElem?_append_left (hlt i hi)] at hx
    exact hiv hstate i hi x hx

theorem Tracks.toClient (h : Tracks cfg skey net) (msg : EadMsg) :
    Tracks cfg skey { net with client := handleCmdData cfg.ciphers net.client msg } :=
  ⟨h.states, (eadDecryptMessage_key _ _ _).trans h.clientKey, h.serverKey, h.sent, h.replied,
    h.taken⟩

/-- A new state of the daemon in which nothing was run. -/
theorem Tracks.quiet (h : Tracks cfg skey net) {t : State srp}
    (hstates : typeSetUsername ≤ t.state)
    (hlast : t.state = typeSendCmd → net.server.state = typeSendCmd ∧
      t.crypt.key = net.server.crypt.key ∧ net.server.crypt.rxIv.toNat ≤ t.crypt.rxIv.toNat)
    (hexec : executed t.log = executed net.server.log)
    (hreplied : ∀ x ∈ replies t.log, x ∈ replies net.server.log ∨
      ∃ iv, Sealed cfg.ciphers skey x.2 iv (fun i => x.1.getD i 0) x.1.length) :
    Tracks cfg skey { net with server := t } := by
  obtain ⟨taken, hnodup, hexecuted, hlt, hiv⟩ := h.taken
  refine ⟨hstates, h.clientKey, fun hstate => ?_, h.sent, fun x hx => ?_, taken, hnodup,
    hexec.trans hexecuted, hlt, fun hstate i hi x hx => ?_⟩
  · exact (hlast hstate).2.1.trans (h.serverKey (hlast hstate).1)
  · exact (hreplied x hx).elim (h.replied x) id
  · exact Nat.le_trans (hiv (hlast hstate).1 i hi x hx) (hlast hstate).2.2

/-- The daemon runs the data of message number i of the client, whose counter was new. -/
theorem Tracks.runs (h : Tracks cfg skey net) {t : State srp} (hstate : net.server.state = typeSendCmd)
    {i : ℕ} {x : List Byte × EadMsg} (hx : net.sent[i]? = some x)
    (hnew : net.server.crypt.rxIv.toNat < (loadIv (opened cfg.ciphers skey x.2)).toNat)
    (hkeep : t.state = typeSendCmd) (hkey : t.crypt.key = skey)
    (hrxIv : t.crypt.rxIv = loadIv (opened cfg.ciphers skey x.2))
    (hexec : executed t.log = executed net.server.log ++ [x.1])
    (hreplied : ∀ x ∈ replies t.log, x ∈ replies net.server.log ∨
      ∃ iv, Sealed cfg.ciphers skey x.2 iv (fun i => x.1.getD i 0) x.1.length) :
    Tracks cfg skey { net with server := t } := by
  obtain ⟨taken, hnodup, hexecuted, hlt, hiv⟩ := h.taken
  have hfresh : i ∉ taken := fun hi => by
    have hold := hiv hstate i hi x hx
    omega
  refine ⟨by rw [hkeep]; decide, h.clientKey, fun _ => hkey, h.sent, fun x hx => ?_,
    taken ++ [i], ?_, ?_, ?_, ?_⟩
  · exact (hreplied x hx).elim (h.replied x) id
  · refine List.nodup_append.mpr ⟨hnodup, List.pairwise_singleton _ i, fun a ha b hb hab => ?_⟩
    obtain rfl := List.mem_singleton.mp hb
    exact hfresh (hab ▸ ha)
  · rw [hexec, hexecuted, List.filterMap_append]
    congr 1
    simp only [List.filterMap_cons, List.filterMap_nil, hx, Option.map_some]
  · intro j hj
    rcases List.mem_append.mp hj with hj | hj
    · exact hlt j hj
    · obtain rfl := List.mem_singleton.mp hj
      exact (List.getElem?_eq_some_iff.mp hx).1
  · intro _ j hj y hy
    rw [hrxIv]
    rcases List.mem_append.mp hj with hj | hj
    · exact Nat.le_trans (hiv hstate j hj y hy) (Nat.le_of_lt hnew)
    · obtain rfl := List.mem_singleton.mp hj
      obtain rfl := Option.some.inj (hx.symm.trans hy)
      exact le_refl _

include hinv in
/-- A packet for the daemon that is allowed and not one of its own messages. -/
theorem Tracks.toServer (h : Tracks cfg skey net) {o : Outside srp} {pkt : EadPacket}
    {len : BitVec 32} {t : State srp}
    (hallowed : (Act.toServer o pkt len).Allowed cfg net)
    (hreflected : (Act.toServer o pkt len).NotReflected cfg net)
    (ht : handlePacket cfg o net.server pkt len = some t) :
    Tracks cfg skey { net with server := t } := by
  obtain ⟨⟨m, hm, hlen, -⟩, hunforged, hproof⟩ := hallowed
  rcases handlePacket_cases ht with rfl | ⟨hfits, ht⟩
  · exact h
  rcases parseMessage_cases hinv h.states hproof ht with
    ⟨⟨hexec, hreplies⟩, hstate, hcrypt⟩ | ⟨⟨hexec, hreplies⟩, hidle⟩ |
    ⟨hlast, pktbuf, reply, t', hcmd, rfl⟩
  · refine h.quiet (hstate ▸ h.states) (fun hlast => ?_) hexec fun x hx => .inl (hreplies ▸ hx)
    rw [hcrypt]
    exact ⟨hstate ▸ hlast, rfl, le_refl _⟩
  · exact h.quiet hidle.1 (fun hlast => absurd hlast hidle.2) hexec
      fun x hx => .inl (hreplies ▸ hx)
  · obtain ⟨hfinish, hcrypt⟩ := finish_fields t' reply
    obtain ⟨hexec, hreplies⟩ := finish_quiet t' reply
    have hskey := h.serverKey hlast
    have hkey := eadDecryptMessage_key cfg.ciphers net.server.crypt pkt.msg
    obtain ⟨-, hdone | ⟨datalen, hdatalen, hpos, hdone⟩⟩ := handleSendCmd_cases hinv hcmd
    · refine h.quiet ?_ (fun _ => ⟨hlast, ?_, ?_⟩) (hexec.trans hdone.executed) fun x hx => ?_
      · rw [hfinish, hdone.state]
        exact h.states
      · rw [hcrypt]
        exact hdone.key.trans hkey
      · rw [hcrypt, hdone.rxIv]
        exact eadDecryptMessage_rxIv _ _ _
      · have hnew := hdone.replies x (hreplies ▸ hx)
        dsimp only at hnew
        rwa [hkey, hskey] at hnew
    · have hdata : 0 < ((eadDecryptMessage cfg.ciphers net.server.crypt pkt.msg).2.2 - 3).toInt := by
        rw [hdatalen]
        exact_mod_cast hpos
      obtain ⟨m', hm', hholds⟩ :=
        hunforged (authentic_of_datalen (len_of_fits (h.produced hm) hlen hfits) hdata)
      rcases List.mem_append.mp hm' with hm' | hm'
      · obtain ⟨x, hx, rfl⟩ := List.mem_map.mp hm'
        obtain ⟨i, hi⟩ := List.mem_iff_getElem?.mp hx
        obtain ⟨iv, payload, n, hsealed, hcommand⟩ := h.sent x hx
        obtain ⟨hnew, hrxIv, hn, hbytes⟩ :=
          datalen_of_sealed (hskey ▸ hsealed.of_holds hholds) hdata
        obtain rfl := hsealed.counter
        refine h.runs hlast hi hnew ?_ ?_ ?_ ?_ fun y hy => ?_
        · exact hfinish.trans (hdone.state.trans hlast)
        · rw [hcrypt]
          exact hdone.key.trans (hkey.trans hskey)
        · rw [hcrypt]
          exact hdone.rxIv.trans hrxIv
        · rw [hexec, hdone.executed, State.record, executed_record, hcommand,
            ← stringAt_payload (Int.ofNat.inj (hdatalen.symm.trans hn)) hbytes]
          rfl
        · have hsealedReply := hdone.replies y (hreplies ▸ hy)
          unfold State.record at hsealedReply
          rw [replies_record] at hsealedReply
          dsimp only [Event.reply?, Option.toList] at hsealedReply
          rwa [List.append_nil, hkey, hskey] at hsealedReply
      · obtain ⟨⟨payload, m'⟩, hx, rfl⟩ := List.mem_map.mp hm'
        obtain ⟨iv, hsealed⟩ := h.replied _ hx
        obtain ⟨hnew, -, hn, -⟩ := datalen_of_sealed (hskey ▸ hsealed.of_holds hholds) hdata
        obtain rfl := hsealed.counter
        rcases hreflected payload m' hx hholds with hshort | hold
        · dsimp only at hn
          omega
        · rw [hskey] at hold
          dsimp only at hnew
          omega

end

/-- A step of the network that is allowed. -/
def NetStep (cfg : Config) (s t : Net srp) : Prop :=
  ∃ a : Act srp, a.Allowed cfg s ∧ a.next cfg s = some t

/-- One that does not give the daemon a message of its own. -/
def DirectStep (cfg : Config) (s t : Net srp) : Prop :=
  ∃ a : Act srp, a.Allowed cfg s ∧ a.NotReflected cfg s ∧ a.next cfg s = some t

/-- Unless messages of the daemon come back to it, the commands that it runs are data of
messages of the client, of each message at most once. -/
theorem commands_from_client (cfg : Config)
    (hinv : ∀ key b, cfg.ciphers.rijndaelDecrypt key (cfg.ciphers.rijndaelEncrypt key b) = b)
    (skey : Mem) (server : State srp) (host : Host) (r : Crypt) (buf : EadMsg)
    (hrun : Relation.ReflTransGen (DirectStep cfg) (session cfg skey server host r buf) net) :
    (executed net.server.log).Subperm (net.sent.map Prod.fst) := by
  have hstart : Tracks cfg skey (session cfg skey server host r buf) := by
    refine ⟨show typeSetUsername ≤ typeSendCmd by decide, rfl, fun _ => rfl, ?_, ?_, [],
      List.nodup_nil, rfl, ?_, ?_⟩
    · intro x hx
      cases hx
    · intro x hx
      cases hx
    · intro i hi
      cases hi
    · intro _ i hi
      cases hi
  refine (run_preserves (fun s t h hstep => ?_) hrun hstart).subperm
  obtain ⟨a, hallowed, hreflected, ht⟩ := hstep
  cases a with
  | command cmd =>
    cases ht
    exact h.command hinv hallowed
  | toServer o pkt len =>
    obtain ⟨server, hserver, rfl⟩ := Option.map_eq_some_iff.mp ht
    exact h.toServer hinv hallowed hreflected hserver
  | toClient msg =>
    cases ht
    exact h.toClient msg

end

/-- A datagram to the daemon, as a command. -/
def packetOf (msg : EadMsg) : EadPacket :=
  ⟨List.replicate 6 0xff, 0x800, 17, 56026,
    { msg with magic := eadMagic, type := 10, nid := 1, sid := 0 }⟩

def oneSession : Net sevenSrp :=
  session oneConfig (fun _ => 0) (start sevenSrp zeroCrypt zeroMsg) .little zeroCrypt zeroMsg

/-- The client has sent the command "ls". -/
def oneCommand : Net sevenSrp :=
  { oneSession with
    client := sendCommand clear oneSession.client [108, 115]
    sent := [(commandData oneSession.client [108, 115],
      (sendCommand clear oneSession.client [108, 115]).buf)] }

/-- A message comes to the daemon, and what a command writes is read from it. -/
def arrives (msg : EadMsg) (console : List (List Byte)) : Act sevenSrp :=
  .toServer { oneOutside with console := console } (packetOf msg) (62 + msg.len)

/-- A message of one of the sides may come to the daemon. -/
theorem arrives_allowed {net : Net sevenSrp} {msg : EadMsg} (hmsg : msg ∈ net.produced)
    (console : List (List Byte)) : (arrives msg console).Allowed oneConfig net :=
  ⟨⟨msg, hmsg, rfl, fun _ _ => rfl⟩, fun _ => ⟨msg, hmsg, rfl, fun _ _ => rfl⟩,
    fun htype => absurd (show (10 : BitVec 32).toInt = typeSendAuth from htype) (by decide)⟩

theorem commands_from_client_one : ∃ net : Net sevenSrp, executed net.server.log = [[108, 115]] ∧
    (executed net.server.log).Subperm (net.sent.map Prod.fst) := by
  have hruns : ((arrives oneCommand.client.buf []).next oneConfig oneCommand).map
      (fun net => executed net.server.log) = some [[108, 115]] := by decide
  obtain ⟨net, hnext, hexec⟩ := Option.map_eq_some_iff.mp hruns
  have hcommand : DirectStep oneConfig oneSession oneCommand :=
    ⟨.command [108, 115], show 2 + 92 < 2 ^ 31 by decide, trivial, rfl⟩
  have harrives : DirectStep oneConfig oneCommand net := by
    refine ⟨arrives oneCommand.client.buf [], arrives_allowed (by simp [Net.produced, oneCommand]) [],
      fun payload m hm => ?_, hnext⟩
    cases hm
  exact ⟨net, hexec, commands_from_client oneConfig (fun _ _ => rfl) (fun _ => 0)
    (start sevenSrp zeroCrypt zeroMsg) .little zeroCrypt zeroMsg
    (.tail (.single hcommand) harrives)⟩

/-- The second reply of the daemon. -/
def secondReply (net : Net sevenSrp) : EadMsg := ((replies net.server.log).getD 1 ([], zeroMsg)).2

/-- The command writes "x", after a while, and the daemon runs it when its second reply
comes back. The client never sent it. -/
theorem reply_is_run : ∃ net, Relation.ReflTransGen (NetStep oneConfig) oneSession net ∧
    ¬(executed net.server.log).Subperm (net.sent.map Prod.fst) := by
  have hruns : ((arrives oneCommand.client.buf [[], [0, 0, 120]]).next oneConfig oneCommand).map
      (fun net => ((replies net.server.log).length,
        ((arrives (secondReply net) []).next oneConfig net).map
          fun net => (executed net.server.log, net.sent.map Prod.fst))) =
      some (3, some ([[108, 115], [120]], [[108, 115]])) := by decide
  obtain ⟨net, hnext, hnet⟩ := Option.map_eq_some_iff.mp hruns
  obtain ⟨net', hnext', hnet'⟩ := Option.map_eq_some_iff.mp (congrArg Prod.snd hnet)
  have hlen : (replies net.server.log).length = 3 := congrArg Prod.fst hnet
  have hcommand : NetStep oneConfig oneSession oneCommand :=
    ⟨.command [108, 115], show 2 + 92 < 2 ^ 31 by decide, rfl⟩
  have harrives : NetStep oneConfig oneCommand net :=
    ⟨_, arrives_allowed (by simp [Net.produced, oneCommand]) [[], [0, 0, 120]], hnext⟩
  have hreply : secondReply net ∈ net.produced := by
    have hone : 1 < (replies net.server.log).length := by omega
    rw [secondReply, List.getD_eq_getElem?_getD, List.getElem?_eq_getElem hone]
    exact List.mem_append_right _ (List.mem_map_of_mem (List.getElem_mem hone))
  have hreturns : NetStep oneConfig net net' := ⟨_, arrives_allowed hreply [], hnext'⟩
  refine ⟨net', .tail (.tail (.single hcommand) harrives) hreturns, fun hsub => ?_⟩
  have hle := hsub.length_le
  rw [show executed net'.server.log = [[108, 115], [120]] from congrArg Prod.fst hnet',
    show net'.sent.map Prod.fst = [[108, 115]] from congrArg Prod.snd hnet'] at hle
  exact absurd hle (by decide)

end Iot7688.Ead
