import Iot7688.EadCrypt

/-!
The emergency access daemon. Its state moves on with the messages of a login, user name,
prime, A and proof, until commands are taken; a message that does not belong to the state
is ignored, but a user name always starts again. The SRP library and the password file are
given from outside. The invariant says for each state what the login has done so far, by the
events of a log since the last user name.
-/
namespace Iot7688.Ead

open Lib EadCrypt

/-- The types of requests, and the states that wait for them. -/
def typePing : ℤ := 0
def typeSetUsername : ℤ := 2
def typeGetPrime : ℤ := 4
def typeSendA : ℤ := 6
def typeSendAuth : ℤ := 8
def typeSendCmd : ℤ := 10

def eadMagic : BitVec 32 := 3671771902
def maxParamLen : ℤ := 256

/-- The SRP library. An entry is what prepare_password leaves in tpe, tce and pw_saltbuf; a
server is what is in the memory of a t_server. -/
structure Srp where
  Entry : Type
  Server : Type
  prime : Entry → Byte
  extSalt : Entry → List Byte
  serverOpenRaw : Entry → List Byte → Server
  salt : Server → List Byte
  serverGenExp : List Byte → Server → Server × List Byte
  serverGetKey : Server → List Byte → Server × Option Mem
  serverVerify : Server → List Byte → Server × ℤ
  serverResponse : Server → List Byte

inductive Event
  /-- A SET_USERNAME is accepted. -/
  | username (name : List Byte)
  /-- Server number ts is opened, and closed. -/
  | opened (ts : ℕ) (name : List Byte)
  | closed (ts : ℕ)
  | generated (ts : ℕ) (b : List Byte)
  /-- A SEND_A is accepted. -/
  | received (a : List Byte)
  /-- t_servergetkey returns a key, and ead_set_key is called. -/
  | gotKey (ts : ℕ) (a : List Byte) (key : Mem)
  | setKey (key : Mem)
  /-- t_serververify returns 0. -/
  | verified (ts : ℕ)
  | system (command : List Byte)
  | encrypted (payload : List Byte) (msg : EadMsg)
  | sent (msg : EadMsg)

/-- The static variables. A server goes with the number of servers opened before it. -/
structure State (srp : Srp) where
  state : ℤ
  username : List Byte
  entry : Option srp.Entry
  ts : Option (ℕ × srp.Server)
  a : List Byte
  b : Option (List Byte)
  crypt : Crypt
  pktbuf : EadMsg
  opens : ℕ
  log : List Event

structure Config where
  host : Host
  ciphers : Ciphers
  devName : List Byte
  nid : BitVec 16
  instanceId : ℕ

/-- What the outside does during a message: prepare_password, malloc, t_random, pipe, fork,
what each read from the command gives, and whether the command is still running when its
time is over. -/
structure Outside (srp : Srp) where
  password : List Byte → Option srp.Entry
  memory : Bool
  random : List Byte
  pipe : Bool
  fork : Bool
  console : List (List Byte)
  timedOut : Bool

section

variable {srp : Srp} (cfg : Config) (o : Outside srp) (s : State srp) (pkt : EadMsg)

def State.record (s : State srp) (e : Event) : State srp := { s with log := s.log ++ [e] }

/-- set_state; none is a null pointer that is followed. -/
def setState (nstate : ℤ) : Option (State srp) :=
  if s.state = nstate then some s
  else if nstate < s.state then
    if nstate < typeGetPrime ∧ typeGetPrime ≤ s.state then
      s.ts.map fun ts => { s with ts := none, state := nstate }.record (.closed ts.1)
    else some { s with state := nstate }
  else if s.state = typeSetUsername then
    match o.password s.username with
    | none => some s
    | some entry =>
        if o.memory then
          some ({ s with
            entry := some entry
            ts := some (s.opens, srp.serverOpenRaw entry s.username)
            opens := s.opens + 1
            state := nstate }.record (.opened s.opens s.username))
        else some { s with entry := some entry, ts := none }
  else if s.state = typeGetPrime then
    s.ts.map fun ts =>
      let r := srp.serverGenExp o.random ts.2
      { s with ts := some (ts.1, r.1), b := some r.2, state := nstate }.record (.generated ts.1 r.2)
  else if s.state = typeSendA then
    s.ts.map fun ts =>
      let r := srp.serverGetKey ts.2 s.a
      let s := { s with ts := some (ts.1, r.1) }
      match r.2 with
      | none => s
      | some key =>
          ({ s with crypt := eadSetKey cfg.host key s.crypt, state := nstate }.record
            (.gotKey ts.1 s.a key)).record (.setKey key)
  else some { s with state := nstate }

/-- A handler returns whether to reply, nstate and the state; none is a crash. -/
abbrev Result (srp : Srp) := Option (Bool × ℤ × State srp)

/-- A reply with the given bytes as its data, and more bytes behind them. -/
def putData (s : State srp) (bytes behind : List Byte) : State srp :=
  { s with pktbuf := { s.pktbuf with
    len := BitVec.ofNat 32 bytes.length
    data := s.pktbuf.data.copy 0 (bytes ++ behind).length fun i => (bytes ++ behind).getD i 0 } }

def bytesAt (m : Mem) (ofs n : ℕ) : List Byte := (List.range n).map fun i => m (ofs + i)

/-- A string in n bytes of memory. -/
def stringAt (m : Mem) (ofs n : ℕ) : List Byte := (bytesAt m ofs n).takeWhile fun b => b ≠ 0

/-- handle_ping; the type of authentication is EAD_AUTH_MD5. -/
def handlePing (nstate : ℤ) : Result srp :=
  some (true, nstate, putData s ([0, 1] ++ cfg.devName.take 1024) [0])

/-- handle_set_username. The last byte of the name is made a NUL. -/
def handleSetUsername : Result srp :=
  (setState cfg o s typeSetUsername).map fun s =>
    let name := stringAt pkt.data 0 31
    (true, typeGetPrime, putData ({ s with username := name }.record (.username name)) [] [])

def handleGetPrime : Result srp :=
  match s.entry, s.ts with
  | some entry, some ts =>
      let salt := srp.salt ts.2
      let rest := salt.length.toUInt8 :: (salt ++ bytesAt s.pktbuf.data (2 + salt.length)
        (32 - salt.length)) ++ srp.extSalt entry
      some (true, typeSendA, putData s (srp.prime entry :: rest) [])
  | _, _ => none

/-- handle_send_a; memcpy does not come back from a negative length. -/
def handleSendA (nstate : ℤ) : Result srp :=
  let len := (pkt.len - 1).toInt
  if maxParamLen + 1 < len then some (false, nstate, s)
  else if len < 0 then none
  else
    let a := bytesAt pkt.data 1 len.toNat
    s.b.map fun b => (true, typeSendAuth,
      putData ({ s with a := a }.record (.received a)) (s.pktbuf.data 0 :: b) [])

def handleSendAuth : Result srp :=
  s.ts.map fun ts =>
    let r := srp.serverVerify ts.2 (bytesAt pkt.data 0 20)
    let s := { s with ts := some (ts.1, r.1) }
    if r.2 ≠ 0 then (false, typeSetUsername, s)
    else
      (true, typeSendCmd, putData (s.record (.verified ts.1)) (srp.serverResponse r.1) [])

/-- ead_encrypt_message on a payload in pktbuf. -/
def encryptReply (s : State srp) (payload : List Byte) : State srp :=
  let r := eadEncryptMessage cfg.ciphers s.crypt (place s.pktbuf payload)
    (BitVec.ofNat 32 payload.length)
  { s with crypt := r.1, pktbuf := r.2 }.record (.encrypted payload r.2)

/-- The console data of a command goes out in messages that are not done. -/
def streamConsole (s : State srp) : List (List Byte) → State srp
  | [] => s
  | bytes :: rest =>
      let s := encryptReply cfg s (0 :: bytes.take 1024)
      streamConsole (s.record (.sent s.pktbuf)) rest

/-- ntohs of a byte. -/
def ntohsByte : Host → Byte → ℕ
  | .little, b => 256 * b.toNat
  | .big, b => b.toNat

def handleSendCmd (nstate : ℤ) : Result srp :=
  let r := eadDecryptMessage cfg.ciphers s.crypt pkt
  let s := { s with crypt := r.1 }
  let datalen := (r.2.2 - 3).toInt
  if datalen ≤ 0 then some (false, nstate, s)
  else
    let data := Function.update r.2.1.data (28 + datalen.toNat) 0
    let command := stringAt data 28 datalen.toNat
    match ntohsByte cfg.host (data 25) with
    | 0 =>
        if o.pipe ∧ o.fork then
          let s := streamConsole cfg (s.record (.system command)) o.console
          if o.timedOut then some (false, nstate, s)
          else some (true, nstate, encryptReply cfg s [1])
        else some (false, nstate, s)
    | 1 =>
        if o.fork then some (true, nstate, encryptReply cfg (s.record (.system command)) [1])
        else some (false, nstate, s)
    | _ => some (false, nstate, s)

def sizeofPacket : ℤ := 62

/-- The handler of a type, and what min_len has beyond the packet. -/
def handler (type : ℤ) : Option ((State srp → Result srp) × ℤ) :=
  if type = typePing then some (fun s => handlePing cfg s s.state, 0)
  else if type = typeSetUsername then some (fun s => handleSetUsername cfg o s pkt, 32)
  else if type = typeGetPrime then some (handleGetPrime, 0)
  else if type = typeSendA then some (fun s => handleSendA s pkt s.state, 1)
  else if type = typeSendAuth then some (fun s => handleSendAuth s pkt, 20)
  else if type = typeSendCmd then some (fun s => handleSendCmd cfg o s pkt s.state, 28)
  else none

/-- parse_message. -/
def parseMessage (len : ℤ) : Option (State srp) :=
  let type := pkt.type.toInt
  if typeGetPrime ≤ type ∧ s.state ≠ type then some s
  else if type ≠ typePing ∧ ((pkt.sid &&& 0xf000) >>> 12).toNat ≠ cfg.instanceId then some s
  else
    match handler cfg o pkt type with
    | none => some s
    | some (run, size) =>
        if len < sizeofPacket + size then some s
        else
          let pktbuf := { s.pktbuf with
            magic := eadMagic, type := pkt.type + 1, nid := cfg.nid, sid := pkt.sid, len := 0 }
          match run { s with pktbuf := pktbuf } with
          | none => none
          | some (reply, nstate, s) =>
              setState cfg o (if reply then s.record (.sent s.pktbuf) else s) nstate

end

/-- The beginning of a packet. The fields are what ntohs makes of them. -/
structure EadPacket where
  etherDhost : List Byte
  etherType : BitVec 16
  proto : Byte
  destport : BitVec 16
  msg : EadMsg

/-- handle_packet, with h->len; size_t has 32 bits. -/
def handlePacket {srp : Srp} (cfg : Config) (o : Outside srp) (s : State srp) (pkt : EadPacket)
    (len : BitVec 32) : Option (State srp) :=
  if len < 62 then some s
  else if pkt.etherType ≠ 0x800 then some s
  else if pkt.etherDhost ≠ List.replicate 6 0xff then some s
  else if pkt.proto ≠ 17 then some s
  else if pkt.destport ≠ 56026 then some s
  else if pkt.msg.magic ≠ eadMagic then some s
  else if len < 62 + pkt.msg.len then some s
  else if pkt.msg.nid ≠ 0xffff ∧ pkt.msg.nid ≠ cfg.nid then some s
  else parseMessage cfg o s pkt.msg len.toInt

/-- The daemon before its first message. -/
def start (srp : Srp) (crypt : Crypt) (pktbuf : EadMsg) : State srp :=
  ⟨typeSetUsername, [], none, none, [], none, crypt, pktbuf, 0, []⟩

/-- The user name of a SET_USERNAME. -/
def Event.name? : Event → Option (List Byte)
  | .username name => some name
  | _ => none

/-- The events since the last user name, the newest first. -/
def login (log : List Event) : List Event := log.reverse.takeWhile fun e => e.name?.isNone

def lastUsername (log : List Event) : Option (List Byte) := log.reverse.findSome? Event.name?

theorem login_record {e : Event} (log : List Event) (he : e.name? = none) :
    login (log ++ [e]) = e :: login log := by
  unfold login
  rw [List.reverse_append]
  exact List.takeWhile_cons_of_pos (by rw [he]; rfl)

theorem login_username (log : List Event) (name : List Byte) :
    login (log ++ [.username name]) = [] := by
  unfold login
  rw [List.reverse_append]
  rfl

theorem lastUsername_record {e : Event} (log : List Event) (he : e.name? = none) :
    lastUsername (log ++ [e]) = lastUsername log := by
  unfold lastUsername
  rw [List.reverse_append, List.reverse_singleton, List.singleton_append,
    List.findSome?_cons_of_isNone (by rw [he]; rfl)]

theorem lastUsername_username (log : List Event) (name : List Byte) :
    lastUsername (log ++ [.username name]) = some name := by
  unfold lastUsername
  rw [List.reverse_append]
  rfl

/-- Server ts was opened for the user name of this login and is open. -/
def OpenServer (log : List Event) (ts : ℕ) : Prop :=
  (∃ name, lastUsername log = some name ∧ .opened ts name ∈ login log) ∧ .closed ts ∉ login log

/-- A command comes after a proof that the open server accepted in this login. -/
def CommandOk (log : List Event) : Event → Prop
  | .system _ => ∃ ts, OpenServer log ts ∧ .verified ts ∈ login log
  | _ => True

variable {srp : Srp} {cfg : Config} {o : Outside srp} {s t : State srp} {pkt : EadMsg}

def State.tsId (s : State srp) : Option ℕ := s.ts.map Prod.fst

structure Inv (s : State srp) : Prop where
  states : s.state = typeSetUsername ∨ s.state = typeGetPrime ∨ s.state = typeSendA ∨
    s.state = typeSendAuth ∨ s.state = typeSendCmd
  server : typeGetPrime ≤ s.state → ∃ ts, s.tsId = some ts ∧ OpenServer s.log ts
  generated : typeSendA ≤ s.state → ∃ ts b, s.tsId = some ts ∧ s.b = some b ∧
    .generated ts b ∈ login s.log
  key : typeSendAuth ≤ s.state → ∃ ts, s.tsId = some ts ∧ .received s.a ∈ login s.log ∧
    .gotKey ts s.a s.crypt.key ∈ login s.log ∧ .setKey s.crypt.key ∈ login s.log
  verified : typeSendCmd ≤ s.state → ∃ ts, s.tsId = some ts ∧ .verified ts ∈ login s.log
  commands : Justified CommandOk s.log

/-- Nothing that the invariant is about has changed. -/
structure Frame (s t : State srp) : Prop where
  state : t.state = s.state
  tsId : t.tsId = s.tsId
  a : t.a = s.a
  b : t.b = s.b
  key : t.crypt.key = s.crypt.key
  log : t.log = s.log

theorem Inv.frame (h : Inv s) (hf : Frame s t) : Inv t := by
  obtain ⟨hstate, hts, ha, hb, hkey, hlog⟩ := hf
  constructor
  · rw [hstate]
    exact h.states
  · rw [hstate, hts, hlog]
    exact h.server
  · rw [hstate, hts, hb, hlog]
    exact h.generated
  · rw [hstate, hts, ha, hkey, hlog]
    exact h.key
  · rw [hstate, hts, hlog]
    exact h.verified
  · rw [hlog]
    exact h.commands

theorem openServer_record {log : List Event} {ts : ℕ} {e : Event} (h : OpenServer log ts)
    (he : e.name? = none) (hclosed : e ≠ .closed ts) : OpenServer (log ++ [e]) ts := by
  obtain ⟨⟨name, hname, hopened⟩, hopen⟩ := h
  unfold OpenServer
  rw [lastUsername_record log he, login_record log he]
  refine ⟨⟨name, hname, List.mem_cons_of_mem _ hopened⟩, fun hmem => ?_⟩
  rcases List.mem_cons.mp hmem with heq | hmem
  · exact hclosed heq.symm
  · exact hopen hmem

theorem mem_login_record {log : List Event} {e e' : Event} (h : e' ∈ login log)
    (he : e.name? = none) : e' ∈ login (log ++ [e]) := by
  rw [login_record log he]
  exact List.mem_cons_of_mem _ h

theorem mem_login_self {log : List Event} {e : Event} (he : e.name? = none) :
    e ∈ login (log ++ [e]) := by
  rw [login_record log he]
  exact List.mem_cons_self

theorem openServer_opened {log : List Event} {name : List Byte} (ts : ℕ)
    (hname : lastUsername log = some name) (hclosed : ∀ ts, .closed ts ∉ login log) :
    OpenServer (log ++ [.opened ts name]) ts := by
  refine ⟨⟨name, (lastUsername_record log rfl).trans hname, mem_login_self rfl⟩, fun hmem => ?_⟩
  rw [login_record log rfl] at hmem
  rcases List.mem_cons.mp hmem with heq | hmem
  · cases heq
  · exact hclosed ts hmem

/-- An event that is no user name and closes nothing keeps the invariant. -/
theorem Inv.record (h : Inv s) (e : Event) (he : e.name? = none) (hclosed : ∀ ts, e ≠ .closed ts)
    (hcommand : CommandOk s.log e) : Inv (s.record e) := by
  constructor
  · exact h.states
  · intro hstate
    obtain ⟨ts, hts, hopen⟩ := h.server hstate
    exact ⟨ts, hts, openServer_record hopen he (hclosed ts)⟩
  · intro hstate
    obtain ⟨ts, b, hts, hb, hmem⟩ := h.generated hstate
    exact ⟨ts, b, hts, hb, mem_login_record hmem he⟩
  · intro hstate
    obtain ⟨ts, hts, hreceived, hgot, hset⟩ := h.key hstate
    exact ⟨ts, hts, mem_login_record hreceived he, mem_login_record hgot he,
      mem_login_record hset he⟩
  · intro hstate
    obtain ⟨ts, hts, hmem⟩ := h.verified hstate
    exact ⟨ts, hts, mem_login_record hmem he⟩
  · exact h.commands.snoc hcommand

theorem Inv.of_idle (hstate : s.state = typeSetUsername)
    (hcommands : Justified CommandOk s.log) : Inv s := by
  constructor
  · exact Or.inl hstate
  · intro h
    rw [hstate] at h
    exact absurd h (by decide)
  · intro h
    rw [hstate] at h
    exact absurd h (by decide)
  · intro h
    rw [hstate] at h
    exact absurd h (by decide)
  · intro h
    rw [hstate] at h
    exact absurd h (by decide)
  · exact hcommands

/-- The moves that handlers ask for, and what they have done for them. -/
inductive Moves (s : State srp) : ℤ → Prop
  | stay : Moves s s.state
  | reset : Moves s typeSetUsername
  | opens : s.state = typeSetUsername → lastUsername s.log = some s.username →
      (∀ ts, .closed ts ∉ login s.log) → Moves s typeGetPrime
  | generates : s.state = typeGetPrime → Moves s typeSendA
  | gets : s.state = typeSendA → .received s.a ∈ login s.log → Moves s typeSendAuth
  | verifies (ts : ℕ) : s.state = typeSendAuth → s.tsId = some ts → .verified ts ∈ login s.log →
      Moves s typeSendCmd

theorem Moves.of_state {nstate : ℤ} (h : s.state = nstate) : Moves s nstate := h ▸ .stay

theorem Moves.sent {nstate : ℤ} (h : Moves s nstate) (msg : EadMsg) :
    Moves (s.record (.sent msg)) nstate := by
  cases h with
  | stay => exact .stay
  | reset => exact .reset
  | opens hstate hname hclosed =>
    refine .opens hstate ((lastUsername_record s.log rfl).trans hname) fun ts hmem => ?_
    rcases List.mem_cons.mp (login_record s.log (show (Event.sent msg).name? = none from rfl) ▸ hmem)
      with heq | hmem
    · cases heq
    · exact hclosed ts hmem
  | generates hstate => exact .generates hstate
  | gets hstate hreceived => exact .gets hstate (mem_login_record hreceived rfl)
  | verifies ts hstate hts hverified =>
    exact .verifies ts hstate hts (mem_login_record hverified rfl)

theorem setState_stay : setState cfg o s s.state = some s := by
  unfold setState
  rw [if_pos rfl]

theorem setState_reset (h : Inv s) (ht : setState cfg o s typeSetUsername = some t) :
    Inv t ∧ t.state = typeSetUsername := by
  by_cases hidle : s.state = typeSetUsername
  · rw [← hidle, setState_stay] at ht
    obtain rfl := Option.some.inj ht
    exact ⟨h, hidle⟩
  · have hge : typeGetPrime ≤ s.state := by
      have hstates := h.states
      unfold typeSetUsername typeGetPrime typeSendA typeSendAuth typeSendCmd at *
      omega
    have hlt : typeSetUsername < s.state :=
      Int.lt_of_lt_of_le (show typeSetUsername < typeGetPrime by decide) hge
    unfold setState at ht
    rw [if_neg hidle, if_pos hlt, if_pos ⟨by decide, hge⟩] at ht
    obtain ⟨ts, hts, rfl⟩ := Option.map_eq_some_iff.mp ht
    exact ⟨Inv.of_idle rfl (h.commands.snoc trivial), rfl⟩

theorem setState_opens (h : Inv s) (hstate : s.state = typeSetUsername)
    (hname : lastUsername s.log = some s.username) (hclosed : ∀ ts, .closed ts ∉ login s.log)
    (ht : setState cfg o s typeGetPrime = some t) : Inv t := by
  unfold setState at ht
  rw [if_neg (by rw [hstate]; decide), if_neg (by rw [hstate]; decide), if_pos hstate] at ht
  split at ht
  · obtain rfl := Option.some.inj ht
    exact h
  · rename_i entry hentry
    split_ifs at ht with hmemory
    · obtain rfl := Option.some.inj ht
      constructor
      · exact Or.inr (Or.inl rfl)
      · exact fun _ => ⟨s.opens, rfl, openServer_opened s.opens hname hclosed⟩
      · exact fun hle => absurd (show typeSendA ≤ typeGetPrime from hle) (by decide)
      · exact fun hle => absurd (show typeSendAuth ≤ typeGetPrime from hle) (by decide)
      · exact fun hle => absurd (show typeSendCmd ≤ typeGetPrime from hle) (by decide)
      · exact h.commands.snoc trivial
    · obtain rfl := Option.some.inj ht
      exact Inv.of_idle hstate h.commands

theorem setState_generates (h : Inv s) (hstate : s.state = typeGetPrime)
    (ht : setState cfg o s typeSendA = some t) : Inv t := by
  obtain ⟨id, hid, hopen⟩ := h.server (Int.le_of_eq hstate.symm)
  unfold setState at ht
  rw [if_neg (by rw [hstate]; decide), if_neg (by rw [hstate]; decide),
    if_neg (by rw [hstate]; decide), if_pos hstate] at ht
  obtain ⟨ts, hts, rfl⟩ := Option.map_eq_some_iff.mp ht
  have hid' : some ts.1 = some id := by
    rw [← hid, State.tsId, hts]
    rfl
  constructor
  · exact Or.inr (Or.inr (Or.inl rfl))
  · exact fun _ => ⟨id, hid', openServer_record hopen rfl (by simp)⟩
  · exact fun _ => ⟨ts.1, _, rfl, rfl, mem_login_self rfl⟩
  · exact fun hle => absurd (show typeSendAuth ≤ typeSendA from hle) (by decide)
  · exact fun hle => absurd (show typeSendCmd ≤ typeSendA from hle) (by decide)
  · exact h.commands.snoc trivial

theorem setState_gets (h : Inv s) (hstate : s.state = typeSendA)
    (hreceived : .received s.a ∈ login s.log)
    (ht : setState cfg o s typeSendAuth = some t) : Inv t := by
  unfold setState at ht
  rw [if_neg (by rw [hstate]; decide), if_neg (by rw [hstate]; decide),
    if_neg (by rw [hstate]; decide), if_neg (by rw [hstate]; decide), if_pos hstate] at ht
  obtain ⟨ts, hts, rfl⟩ := Option.map_eq_some_iff.mp ht
  have htsId : s.tsId = some ts.1 := by
    rw [State.tsId, hts]
    rfl
  dsimp only
  split
  · exact h.frame ⟨rfl, htsId.symm, rfl, rfl, rfl, rfl⟩
  · rename_i key hkey
    have hserver := h.server (by rw [hstate]; decide)
    have hgenerated := h.generated (Int.le_of_eq hstate.symm)
    rw [htsId] at hserver hgenerated
    obtain ⟨id, hid, hopen⟩ := hserver
    obtain ⟨id', b, hid', hb, hmem⟩ := hgenerated
    constructor
    · exact Or.inr (Or.inr (Or.inr (Or.inl rfl)))
    · exact fun _ => ⟨id, hid, openServer_record (openServer_record hopen rfl (by simp)) rfl (by simp)⟩
    · exact fun _ => ⟨id', b, hid', hb, mem_login_record (mem_login_record hmem rfl) rfl⟩
    · exact fun _ => ⟨ts.1, rfl, mem_login_record (mem_login_record hreceived rfl) rfl,
        mem_login_record (mem_login_self rfl) rfl, mem_login_self rfl⟩
    · exact fun hle => absurd (show typeSendCmd ≤ typeSendAuth from hle) (by decide)
    · have hgot : CommandOk s.log (.gotKey ts.1 s.a key) := trivial
      exact (h.commands.snoc hgot).snoc trivial

theorem setState_verifies {ts : ℕ} (h : Inv s) (hstate : s.state = typeSendAuth)
    (hts : s.tsId = some ts) (hverified : .verified ts ∈ login s.log)
    (ht : setState cfg o s typeSendCmd = some t) : Inv t := by
  have hprime : typeGetPrime ≤ s.state := by rw [hstate]; decide
  have hsendA : typeSendA ≤ s.state := by rw [hstate]; decide
  unfold setState at ht
  rw [if_neg (by rw [hstate]; decide), if_neg (by rw [hstate]; decide),
    if_neg (by rw [hstate]; decide), if_neg (by rw [hstate]; decide),
    if_neg (by rw [hstate]; decide)] at ht
  obtain rfl := Option.some.inj ht
  exact ⟨by simp, fun _ => h.server hprime, fun _ => h.generated hsendA,
    fun _ => h.key (Int.le_of_eq hstate.symm), fun _ => ⟨ts, hts, hverified⟩, h.commands⟩

/-- A move keeps the invariant. -/
theorem setState_inv {nstate : ℤ} (h : Inv s) (hmove : Moves s nstate)
    (ht : setState cfg o s nstate = some t) : Inv t := by
  cases hmove with
  | stay =>
    rw [setState_stay] at ht
    obtain rfl := Option.some.inj ht
    exact h
  | reset => exact (setState_reset h ht).1
  | opens hstate hname hclosed => exact setState_opens h hstate hname hclosed ht
  | generates hstate => exact setState_generates h hstate ht
  | gets hstate hreceived => exact setState_gets h hstate hreceived ht
  | verifies ts hstate hts hverified => exact setState_verifies h hstate hts hverified ht

/-- What a handler returns: the invariant holds, and the move is one of those. -/
def Good (r : Result srp) : Prop :=
  ∀ reply nstate t, r = some (reply, nstate, t) → Inv t ∧ Moves t nstate

theorem Inv.putData (h : Inv s) (bytes behind : List Byte) : Inv (putData s bytes behind) :=
  h.frame ⟨rfl, rfl, rfl, rfl, rfl, rfl⟩

theorem handlePing_good (h : Inv s) : Good (handlePing cfg s s.state) := by
  intro reply nstate t ht
  cases ht
  exact ⟨h.putData _ _, .stay⟩

theorem handleSetUsername_good (h : Inv s) : Good (handleSetUsername cfg o s pkt) := by
  intro reply nstate t ht
  obtain ⟨t, hreset, heq⟩ := Option.map_eq_some_iff.mp ht
  cases heq
  obtain ⟨hinv, hidle⟩ := setState_reset h hreset
  constructor
  · exact Inv.of_idle hidle (hinv.commands.snoc trivial)
  · refine .opens hidle (lastUsername_username _ _) fun ts hmem => ?_
    have hlogin := login_username t.log (stringAt pkt.data 0 31)
    exact absurd (hlogin ▸ hmem) List.not_mem_nil

theorem handleGetPrime_good (h : Inv s) (hstate : s.state = typeGetPrime) :
    Good (handleGetPrime s) := by
  intro reply nstate t ht
  unfold handleGetPrime at ht
  split at ht
  · cases ht
    exact ⟨h.putData _ _, .generates hstate⟩
  · cases ht

/-- A new A does not matter before there is a key. -/
theorem Inv.setA (h : Inv s) (hstate : s.state = typeSendA) (a : List Byte) :
    Inv { s with a := a } := by
  refine ⟨h.states, h.server, h.generated, fun hle => ?_, h.verified, h.commands⟩
  exact absurd (show typeSendAuth ≤ typeSendA from hstate ▸ hle) (by decide)

theorem handleSendA_good (h : Inv s) (hstate : s.state = typeSendA) :
    Good (handleSendA s pkt s.state) := by
  intro reply nstate t ht
  unfold handleSendA at ht
  dsimp only at ht
  split_ifs at ht
  · cases ht
    exact ⟨h, .stay⟩
  · obtain ⟨b, hb, heq⟩ := Option.map_eq_some_iff.mp ht
    cases heq
    refine ⟨((h.setA hstate _).record (.received _) rfl (by simp) trivial).putData _ _, .gets hstate ?_⟩
    exact mem_login_self rfl

theorem handleSendAuth_good (h : Inv s) (hstate : s.state = typeSendAuth) :
    Good (handleSendAuth s pkt) := by
  intro reply nstate t ht
  obtain ⟨ts, hts, heq⟩ := Option.map_eq_some_iff.mp ht
  have htsId : s.tsId = some ts.1 := by
    rw [State.tsId, hts]
    rfl
  dsimp only at heq
  have hframe : Inv { s with ts := some (ts.1, (srp.serverVerify ts.2 (bytesAt pkt.data 0 20)).1) } :=
    h.frame ⟨rfl, htsId.symm, rfl, rfl, rfl, rfl⟩
  split_ifs at heq
  · cases heq
    exact ⟨hframe, .reset⟩
  · cases heq
    exact ⟨(hframe.record (.verified ts.1) rfl (by simp) trivial).putData _ _,
      .verifies ts.1 hstate rfl (mem_login_self rfl)⟩

theorem eadDecryptMessage_key (c : Ciphers) (r : Crypt) (msg : EadMsg) :
    (eadDecryptMessage c r msg).1.key = r.key := by
  have hcheck (iv : BitVec 32) (r' : Crypt) (h : eadCheckRxIv r iv = some r') : r'.key = r.key := by
    unfold eadCheckRxIv at h
    split_ifs at h
    cases h
    rfl
  unfold eadDecryptMessage
  split
  · rfl
  · dsimp only
    split
    · rfl
    · split
      · rfl
      · rename_i r' hr
        split
        · exact hcheck _ r' hr
        · exact hcheck _ r' hr

theorem encryptReply_inv (h : Inv s) (payload : List Byte) :
    Inv (encryptReply cfg s payload) := by
  have hframe : Inv { s with
      crypt := eadGetTxIv s.crypt
      pktbuf := (encryptReply cfg s payload).pktbuf } := h.frame ⟨rfl, rfl, rfl, rfl, rfl, rfl⟩
  exact hframe.record (.encrypted payload _) rfl (by simp) trivial

theorem streamConsole_inv (h : Inv s) (console : List (List Byte)) :
    Inv (streamConsole cfg s console) ∧ (streamConsole cfg s console).state = s.state := by
  induction console generalizing s with
  | nil => exact ⟨h, rfl⟩
  | cons bytes rest ih =>
    have hinv : Inv (encryptReply cfg s (0 :: bytes.take 1024)) := encryptReply_inv h _
    exact ih (hinv.record (.sent (encryptReply cfg s (0 :: bytes.take 1024)).pktbuf) rfl (by simp)
      trivial)

/-- In the last state a command is justified. -/
theorem commandOk_system (h : Inv s) (hstate : s.state = typeSendCmd) (command : List Byte) :
    CommandOk s.log (.system command) := by
  obtain ⟨ts, hts, hopen⟩ := h.server (by rw [hstate]; decide)
  obtain ⟨ts', hts', hverified⟩ := h.verified (Int.le_of_eq hstate.symm)
  obtain rfl : ts = ts' := Option.some.inj (hts.symm.trans hts')
  exact ⟨ts, hopen, hverified⟩

theorem handleSendCmd_good (h : Inv s) (hstate : s.state = typeSendCmd) :
    Good (handleSendCmd cfg o s pkt s.state) := by
  intro reply nstate t ht
  have hframe : Inv { s with crypt := (eadDecryptMessage cfg.ciphers s.crypt pkt).1 } :=
    h.frame ⟨rfl, rfl, rfl, rfl, eadDecryptMessage_key _ _ _, rfl⟩
  have hcommand (command : List Byte) : Inv (State.record
      { s with crypt := (eadDecryptMessage cfg.ciphers s.crypt pkt).1 } (.system command)) :=
    hframe.record _ rfl (by simp) (commandOk_system hframe hstate command)
  unfold handleSendCmd at ht
  dsimp only at ht
  split at ht
  · cases ht
    exact ⟨hframe, .stay⟩
  · split at ht
    · split at ht
      · obtain ⟨hinv, hkeep⟩ := streamConsole_inv (hcommand _) o.console
        split at ht
        · cases ht
          exact ⟨hinv, .of_state hkeep⟩
        · cases ht
          exact ⟨encryptReply_inv hinv _, .of_state hkeep⟩
      · cases ht
        exact ⟨hframe, .stay⟩
    · split at ht
      · cases ht
        exact ⟨encryptReply_inv (hcommand _) _, .stay⟩
      · cases ht
        exact ⟨hframe, .stay⟩
    · cases ht
      exact ⟨hframe, .stay⟩

/-- From GET_PRIME on the type is the state. -/
theorem handler_good {type size : ℤ} {run : State srp → Result srp} (h : Inv s)
    (hrun : handler cfg o pkt type = some (run, size))
    (htype : typeGetPrime ≤ type → s.state = type) : Good (run s) := by
  unfold handler at hrun
  split_ifs at hrun with h0 h2 h4 h6 h8 h10
  · cases hrun
    exact handlePing_good h
  · cases hrun
    exact handleSetUsername_good h
  · cases hrun
    exact handleGetPrime_good h ((htype (Int.le_of_eq h4.symm)).trans h4)
  · cases hrun
    exact handleSendA_good h ((htype (by rw [h6]; decide)).trans h6)
  · cases hrun
    exact handleSendAuth_good h ((htype (by rw [h8]; decide)).trans h8)
  · cases hrun
    exact handleSendCmd_good h ((htype (by rw [h10]; decide)).trans h10)

/-- Every message keeps the invariant. -/
theorem parseMessage_inv {len : ℤ} (h : Inv s) (ht : parseMessage cfg o s pkt len = some t) :
    Inv t := by
  unfold parseMessage at ht
  dsimp only at ht
  split_ifs at ht with htype hinstance
  · cases ht
    exact h
  · cases ht
    exact h
  · split at ht
    · cases ht
      exact h
    · rename_i run size hrun
      split_ifs at ht
      · cases ht
        exact h
      · split at ht
        · cases ht
        · rename_i reply nstate t' ht'
          have hframe : Inv { s with pktbuf := { s.pktbuf with
              magic := eadMagic, type := pkt.type + 1, nid := cfg.nid, sid := pkt.sid, len := 0 } } :=
            h.frame ⟨rfl, rfl, rfl, rfl, rfl, rfl⟩
          obtain ⟨hinv, hmove⟩ := handler_good hframe hrun
            (fun hle => not_not.mp fun hne => htype ⟨hle, hne⟩) reply nstate t' ht'
          split_ifs at ht
          · exact setState_inv (hinv.record (.sent t'.pktbuf) rfl (by simp) trivial)
              (hmove.sent _) ht
          · exact setState_inv hinv hmove ht

/-- The daemon takes a packet, of any length. -/
def Step (cfg : Config) (s t : State srp) : Prop :=
  ∃ o pkt len, parseMessage cfg o s pkt len = some t

/-- In every state of a run: the server is the one of the last user name, B is its B, the
key is its key for the A of this login, and all commands came after a proof. -/
theorem authenticated {crypt : Crypt} {pktbuf : EadMsg} (cfg : Config)
    (hrun : Relation.ReflTransGen (Step cfg) (start srp crypt pktbuf) s) :
    (typeGetPrime ≤ s.state → ∃ ts, s.tsId = some ts ∧ OpenServer s.log ts) ∧
    (typeSendA ≤ s.state → ∃ ts b, s.tsId = some ts ∧ s.b = some b ∧
      .generated ts b ∈ login s.log) ∧
    (typeSendAuth ≤ s.state → ∃ ts, s.tsId = some ts ∧ .received s.a ∈ login s.log ∧
      .gotKey ts s.a s.crypt.key ∈ login s.log ∧ .setKey s.crypt.key ∈ login s.log) ∧
    Justified CommandOk s.log := by
  have hstart : Inv (start srp crypt pktbuf) := Inv.of_idle rfl justified_nil
  have h : Inv s := run_preserves (fun s t h ⟨o, pkt, len, ht⟩ => parseMessage_inv h ht) hrun hstart
  exact ⟨h.server, h.generated, h.key, h.commands⟩

/-- The commands that were run. -/
def Event.command? : Event → Option (List Byte)
  | .system command => some command
  | _ => none

def executed (log : List Event) : List (List Byte) := log.filterMap Event.command?

/-- A library whose proofs begin with a seven. -/
def sevenSrp : Srp where
  Entry := Unit
  Server := Unit
  prime _ := 0
  extSalt _ := []
  serverOpenRaw _ _ := ()
  salt _ := []
  serverGenExp _ _ := ((), [1])
  serverGetKey _ _ := ((), some fun _ => 0)
  serverVerify _ proof := ((), if proof.head? = some 7 then 0 else 1)
  serverResponse _ := []

def oneConfig : Config := ⟨.little, clear, [], 1, 0⟩

def oneOutside : Outside sevenSrp := ⟨fun _ => some (), true, [], true, true, [], false⟩

/-- A message with the given data; what follows are zeros. -/
def message (type len : BitVec 32) (data : List Byte) : EadMsg :=
  ⟨eadMagic, len, type, 0, 0, fun i => data.getD i 0⟩

/-- A login, and a command of one letter. -/
def loginMessages : List EadMsg :=
  [message 2 32 [97], message 4 0 [], message 6 2 [0, 5], message 8 20 [7],
    message 10 64 (List.replicate 23 0 ++ [1, 35, 0, 0, 0, 120])]

def runMessages (msgs : List EadMsg) (s : State sevenSrp) : Option (State sevenSrp) :=
  msgs.foldlM (fun s msg => parseMessage oneConfig oneOutside s msg 126) s

theorem runMessages_run {msgs : List EadMsg} {s t : State sevenSrp}
    (h : runMessages msgs s = some t) : Relation.ReflTransGen (Step oneConfig) s t := by
  induction msgs generalizing s with
  | nil =>
    cases h
    exact .refl
  | cons msg msgs ih =>
    obtain ⟨s', hs, ht⟩ := Option.bind_eq_some_iff.mp h
    exact .head ⟨oneOutside, msg, 126, hs⟩ (ih ht)

theorem authenticated_login : ∃ s : State sevenSrp,
    runMessages loginMessages (start sevenSrp zeroCrypt zeroMsg) = some s ∧
      s.state = typeSendCmd ∧ executed s.log = [[120]] ∧ Justified CommandOk s.log := by
  have hrun : (runMessages loginMessages (start sevenSrp zeroCrypt zeroMsg)).map
      (fun s => (s.state, executed s.log)) = some (10, [[120]]) := by
    decide
  obtain ⟨s, hs, heq⟩ := Option.map_eq_some_iff.mp hrun
  exact ⟨s, hs, congrArg Prod.fst heq, congrArg Prod.snd heq,
    (authenticated oneConfig (runMessages_run hs)).2.2.2⟩

end Iot7688.Ead
