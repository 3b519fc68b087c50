import Iot7688.Ead
import Iot7688.Lib.Access

/-!
The memory that the daemon touches for a captured packet, in the order of the code. Lengths
are 32-bit sums and differences: the sum that handle_packet compares wraps, and handle_send_a
takes one off the length field. The command is ended with a NUL behind its last byte.
-/
namespace Iot7688.EadCrypt

open Lib

variable {ρ : Type} (r : ρ) (base : ℕ) (c : Ciphers) (s : Crypt) (msg : EadMsg)

/-- ead_decrypt_message, with the data of the message at `base`. -/
def decryptAccesses : List (Access ρ) :=
  if msg.len = 0 ∨ 0 < msg.len.toInt.tmod encPad then []
  else
    let data := opened c s.key msg
    blockAccesses r base 16 (rounds 16 msg.len) ++ ⟨r, base + padOfs, 1⟩ ::
      if encPad ≤ (data padOfs).toNat then []
      else ⟨r, base + ivOfs, 4⟩ ::
        match eadCheckRxIv s (loadIv data) with
        | none => []
        | some _ => ⟨r, base, 20⟩ :: blockAccesses r base 64 (rounds 64 msg.len)

variable {r base c s msg} {size : ρ → ℕ}

/-- The loops run over the length field, or not at all if it is negative. -/
theorem rounds_le {n : ℕ} (hn : n = 16 ∨ n = 64) (h : ¬0 < msg.len.toInt.tmod encPad) :
    n * rounds n msg.len ≤ msg.len.toInt.toNat := by
  unfold rounds
  have hdiv : msg.len.toInt.toNat % 64 = 0 := by
    rcases Int.lt_or_le msg.len.toInt 0 with hneg | hpos
    · rw [Int.toNat_of_nonpos (Int.le_of_lt hneg)]
    · have htmod : msg.len.toInt.tmod encPad = msg.len.toInt % 64 := Int.tmod_eq_emod_of_nonneg hpos
      rw [htmod] at h
      omega
  rcases hn with rfl | rfl <;> omega

theorem decryptAccesses_within (h : base + msg.len.toInt.toNat ≤ size r) :
    AllWithin size (decryptAccesses r base c s msg) ↔
      (msg.len = 0 ∨ 0 < msg.len.toInt.tmod encPad) ∨ base + sizeofEncrypted ≤ size r := by
  unfold decryptAccesses
  split
  · next hnone => exact iff_of_true allWithin_nil (Or.inl hnone)
  · next hsome =>
    rw [or_iff_right hsome]
    have hdecrypt := rounds_le (Or.inl rfl) fun hpos => hsome (Or.inr hpos)
    have hhash := rounds_le (Or.inr rfl) fun hpos => hsome (Or.inr hpos)
    dsimp only
    rw [allWithin_append, allWithin_cons, within_iff]
    unfold padOfs ivOfs sizeofEncrypted
    constructor
    · rintro ⟨-, hpad, -⟩
      omega
    · intro hbase
      refine ⟨blockAccesses_within (by omega), Or.inr (by omega), ?_⟩
      split
      · exact allWithin_nil
      · rw [allWithin_cons, within_iff]
        refine ⟨Or.inr (by omega), ?_⟩
        split
        · exact allWithin_nil
        · rw [allWithin_cons, within_iff]
          exact ⟨Or.inr (by omega), blockAccesses_within (by omega)⟩

end Iot7688.EadCrypt

namespace Iot7688.Ead

open Lib EadCrypt

/-- The captured packet, abuf, username, the salt of a reply and the buffer of replies. -/
inductive Region
  | packet
  | abuf
  | username
  | salt
  | pktbuf

/-- How many bytes a region has, for a packet of len bytes. -/
def Region.size (len : BitVec 32) : Region → ℕ
  | packet => len.toNat
  | abuf => 257
  | username => 32
  | salt => 32
  | pktbuf => 1600

section

variable {srp : Srp} (cfg : Config) (o : Outside srp) (s : State srp) (pkt : EadMsg)

/-- ead_send_packet_clone with n bytes of reply data. -/
def cloneAccesses (n : ℕ) : List (Access Region) :=
  [⟨.packet, 0, 42⟩, ⟨.packet, 58, 4⟩, ⟨.pktbuf, 0, 42⟩, ⟨.pktbuf, 0, 62 + n⟩]

def handlePingAccesses : List (Access Region) :=
  let slen := (cfg.devName.take 1024).length
  ⟨.pktbuf, 64, slen⟩ :: ⟨.pktbuf, 64 + slen, 1⟩ :: ⟨.pktbuf, 62, 2⟩ :: cloneAccesses (2 + slen)

/-- strncpy reads up to the NUL and fills the name. -/
def handleSetUsernameAccesses : List (Access Region) :=
  let read := min 32 ((stringAt pkt.data 0 32).length + 1)
  ⟨.packet, 62, read⟩ :: ⟨.username, 0, 32⟩ :: ⟨.username, 31, 1⟩ :: cloneAccesses 0

/-- The server's salt is copied to the 32 bytes for it. -/
def handleGetPrimeAccesses : List (Access Region) :=
  match s.ts with
  | none => []
  | some ts =>
      ⟨.pktbuf, 62, 2⟩ :: ⟨.salt, 0, (srp.salt ts.2).length⟩ :: ⟨.pktbuf, 96, 32⟩ ::
        cloneAccesses 66

/-- memcpy takes the int as a size_t. -/
def handleSendAAccesses : List (Access Region) :=
  let len := pkt.len - 1
  if maxParamLen + 1 < len.toInt then []
  else ⟨.packet, 63, len.toNat⟩ :: ⟨.abuf, 0, len.toNat⟩ ::
    match s.b with
    | none => []
    | some b => ⟨.pktbuf, 63, b.length⟩ :: cloneAccesses (1 + b.length)

def handleSendAuthAccesses : List (Access Region) :=
  ⟨.packet, 62, 20⟩ ::
    match s.ts with
    | none => []
    | some ts =>
        if (srp.serverVerify ts.2 (bytesAt pkt.data 0 20)).2 ≠ 0 then []
        else ⟨.pktbuf, 62, 20⟩ :: cloneAccesses 20

/-- The length of an encrypted message with n bytes of payload. -/
def enclen (n : ℕ) : ℕ := n + sizeofEncrypted + (encPad - (n + sizeofEncrypted) % encPad) % encPad

/-- A reply with n bytes of console data behind its first byte. -/
def replyAccesses (n : ℕ) : List (Access Region) :=
  ⟨.pktbuf, 87, 1 + n⟩ :: ⟨.pktbuf, 62, enclen (1 + n)⟩ :: cloneAccesses (enclen (1 + n))

/-- The command is a string behind its type and its timeout. -/
def commandAccesses : List (Access Region) :=
  let r := eadDecryptMessage cfg.ciphers s.crypt pkt
  let datalen := (r.2.2 - 3).toInt
  if datalen ≤ 0 then []
  else
    let data := Function.update r.2.1.data (28 + datalen.toNat) 0
    let command := (stringAt data 28 datalen.toNat).length
    ⟨.packet, 87, 1⟩ :: ⟨.packet, 88, 2⟩ :: ⟨.packet, 90 + datalen.toNat, 1⟩ ::
      match ntohsByte cfg.host (data 25) with
      | 0 =>
          if o.pipe ∧ o.fork then
            ⟨.packet, 90, command + 1⟩ ::
              (o.console.flatMap fun bytes => replyAccesses (bytes.take 1024).length) ++
                if o.timedOut then [] else replyAccesses 0
          else []
      | 1 => if o.fork then ⟨.packet, 90, command + 1⟩ :: replyAccesses 0 else []
      | _ => []

def handleSendCmdAccesses : List (Access Region) :=
  decryptAccesses .packet 62 cfg.ciphers s.crypt pkt ++ commandAccesses cfg o s pkt

/-- The accesses of the handler of a type, and what min_len has beyond the packet. -/
def handlerAccesses (type : ℤ) : Option (List (Access Region) × ℤ) :=
  if type = typePing then some (handlePingAccesses cfg, 0)
  else if type = typeSetUsername then some (handleSetUsernameAccesses pkt, 32)
  else if type = typeGetPrime then some (handleGetPrimeAccesses s, 0)
  else if type = typeSendA then some (handleSendAAccesses s pkt, 1)
  else if type = typeSendAuth then some (handleSendAuthAccesses s pkt, 20)
  else if type = typeSendCmd then some (handleSendCmdAccesses cfg o s pkt, 28)
  else none

/-- parse_message. -/
def parseMessageAccesses (len : ℤ) : List (Access Region) :=
  let type := pkt.type.toInt
  ⟨.packet, 50, 4⟩ ::
    if typeGetPrime ≤ type ∧ s.state ≠ type then []
    else ⟨.packet, 56, 2⟩ ::
      if type ≠ typePing ∧ ((pkt.sid &&& 0xf000) >>> 12).toNat ≠ cfg.instanceId then []
      else
        match handlerAccesses cfg o s pkt type with
        | none => []
        | some (accesses, size) =>
            if len < sizeofPacket + size then [] else ⟨.pktbuf, 42, 20⟩ :: accesses

end

/-- handle_packet. -/
def handlePacketAccesses {srp : Srp} (cfg : Config) (o : Outside srp) (s : State srp)
    (pkt : EadPacket) (len : BitVec 32) : List (Access Region) :=
  if len < 62 then []
  else ⟨.packet, 0, 62⟩ ::
    if pkt.etherType ≠ 0x800 then []
    else if pkt.etherDhost ≠ List.replicate 6 0xff then []
    else if pkt.proto ≠ 17 then []
    else if pkt.destport ≠ 56026 then []
    else if pkt.msg.magic ≠ eadMagic then []
    else if len < 62 + pkt.msg.len then []
    else if pkt.msg.nid ≠ 0xffff ∧ pkt.msg.nid ≠ cfg.nid then []
    else parseMessageAccesses cfg o s pkt.msg len.toInt

section

variable {srp : Srp} {cfg : Config} {o : Outside srp} {s : State srp} {pkt : EadMsg}
  {len : BitVec 32}

theorem cloneAccesses_within (hlen : 62 ≤ len.toNat) {n : ℕ} :
    AllWithin (Region.size len) (cloneAccesses n) ↔ 62 + n ≤ 1600 := by
  unfold cloneAccesses
  simp only [allWithin_cons, allWithin_nil, within_iff, Region.size, and_true]
  omega

theorem handlePing_within (hlen : 62 ≤ len.toNat) :
    AllWithin (Region.size len) (handlePingAccesses cfg) := by
  have hslen : (cfg.devName.take 1024).length ≤ 1024 := List.length_take_le _ _
  unfold handlePingAccesses
  dsimp only
  simp only [allWithin_cons, within_iff, Region.size, cloneAccesses_within hlen]
  omega

theorem handleSetUsername_within (hlen : 62 + 32 ≤ len.toNat) :
    AllWithin (Region.size len) (handleSetUsernameAccesses pkt) := by
  unfold handleSetUsernameAccesses
  dsimp only
  simp only [allWithin_cons, within_iff, Region.size,
    cloneAccesses_within (by omega : 62 ≤ len.toNat)]
  omega

theorem handleGetPrime_within_iff (hlen : 62 ≤ len.toNat) :
    AllWithin (Region.size len) (handleGetPrimeAccesses s) ↔
      ∀ ts ∈ s.ts, (srp.salt ts.2).length ≤ 32 := by
  unfold handleGetPrimeAccesses
  cases s.ts with
  | none => exact iff_of_true allWithin_nil nofun
  | some ts =>
    simp only [allWithin_cons, within_iff, Region.size, cloneAccesses_within hlen,
      Option.mem_some_iff, forall_eq']
    omega

/-- A length that is taken fits abuf unless it is negative. -/
theorem handleSendA_within_iff (hlen : 63 ≤ len.toNat) (hfits : ¬len < 62 + pkt.len)
    (hb : ∀ b ∈ s.b, b.length ≤ 256) :
    AllWithin (Region.size len) (handleSendAAccesses s pkt) ↔
      maxParamLen + 1 < (pkt.len - 1).toInt ∨ 0 ≤ (pkt.len - 1).toInt := by
  unfold handleSendAAccesses maxParamLen
  dsimp only
  split
  · next hlarge => exact iff_of_true allWithin_nil (Or.inl hlarge)
  · next hsmall =>
    rw [or_iff_right hsmall]
    simp only [allWithin_cons, within_iff, Region.size]
    rcases Int.lt_or_le (pkt.len - 1).toInt 0 with hneg | hpos
    · refine iff_of_false (fun h => ?_) (Int.not_le.mpr hneg)
      have habuf := h.2.1
      have htoInt := BitVec.toInt_eq_toNat_cond (pkt.len - 1)
      split at htoInt <;> omega
    · refine iff_of_true ⟨Or.inr ?_, Or.inr ?_, ?_⟩ hpos
      · have htoInt := BitVec.toInt_eq_toNat_cond (pkt.len - 1)
        bv_omega
      · have htoInt := BitVec.toInt_eq_toNat_cond (pkt.len - 1)
        split at htoInt <;> omega
      · cases hsb : s.b with
        | none => exact allWithin_nil
        | some b =>
          have hblen := hb b hsb
          simp only [allWithin_cons, within_iff, Region.size,
            cloneAccesses_within (by omega : 62 ≤ len.toNat)]
          omega

theorem handleSendAuth_within (hlen : 62 + 20 ≤ len.toNat) :
    AllWithin (Region.size len) (handleSendAuthAccesses s pkt) := by
  unfold handleSendAuthAccesses
  rw [allWithin_cons, within_iff]
  refine ⟨Or.inr hlen, ?_⟩
  cases s.ts with
  | none => exact allWithin_nil
  | some ts =>
    dsimp only
    split
    · exact allWithin_nil
    · simp only [allWithin_cons, within_iff, Region.size,
        cloneAccesses_within (by omega : 62 ≤ len.toNat)]
      omega

theorem replyAccesses_within (hlen : 62 ≤ len.toNat) {n : ℕ} (hn : n ≤ 1024) :
    AllWithin (Region.size len) (replyAccesses n) := by
  unfold replyAccesses enclen sizeofEncrypted encPad
  simp only [allWithin_cons, within_iff, Region.size, cloneAccesses_within hlen]
  omega

/-- A message that the command handler takes: the counter is new, the hash is right, and
there is something behind the type and the timeout. -/
structure CommandTaken (c : Ciphers) (s : Crypt) (msg : EadMsg) : Prop where
  counter : MovesWindow c s msg
  hash : ∀ i, loadDigest (opened c s.key msg) i =
    (eadHashMessage c (opened c s.key msg) msg.len).1 i
  data : ((opened c s.key msg padOfs).toNat + 28 : ℤ) < msg.len.toInt

/-- A length that is not negative fits into the packet. -/
theorem length_le_of_fits {pkt : EadMsg} (hlen : 62 ≤ len.toInt) (hfits : ¬len < 62 + pkt.len) :
    62 + pkt.len.toInt.toNat ≤ len.toNat := by
  have htoInt := BitVec.toInt_eq_toNat_cond pkt.len
  have hlen' := BitVec.toInt_eq_toNat_cond len
  have hsum : (62 + pkt.len).toNat = (62 + pkt.len.toNat) % 2 ^ 32 := BitVec.toNat_add ..
  rw [BitVec.not_lt, BitVec.le_def, hsum] at hfits
  split at htoInt
  · split at hlen' <;> omega
  · split at hlen' <;> omega

theorem toInt_sub_ofNat {x : BitVec 32} {k : ℕ} (hk : k < 0x80000000)
    (hx : -0x80000000 ≤ x.toInt - k) :
    (x - BitVec.ofNat 32 k).toInt = x.toInt - k := by
  have hlt := BitVec.toInt_lt (x := x)
  have hofNat : (BitVec.ofNat 32 k).toInt = k := by
    rw [BitVec.toInt_ofNat']
    exact Int.bmod_eq_of_le (by omega) (by omega)
  rw [BitVec.toInt_sub, hofNat]
  exact Int.bmod_eq_of_le (by omega) (by omega)

/-- The sum may wrap, but then the length is hardly negative. -/
theorem toInt_of_fits {pkt : EadMsg} (hlen : 62 ≤ len.toInt) (hfits : ¬len < 62 + pkt.len) :
    -62 ≤ pkt.len.toInt := by
  have htoInt := BitVec.toInt_eq_toNat_cond pkt.len
  have hlen' := BitVec.toInt_eq_toNat_cond len
  split at htoInt
  · omega
  · split at hlen' <;> bv_omega

/-- The data of a command, for a length that does not wrap. -/
theorem datalen_eq {c : Ciphers} {r : Crypt} (hmoves : MovesWindow c r pkt)
    (hlen : 62 ≤ len.toInt) (hfits : ¬len < 62 + pkt.len) :
    ((eadDecryptMessage c r pkt).2.2 - 3).toInt =
      if ∀ i, loadDigest (opened c r.key pkt) i =
          (eadHashMessage c (opened c r.key pkt) pkt.len).1 i then
        pkt.len.toInt - ((opened c r.key pkt padOfs).toNat + 28 : ℕ)
      else -3 := by
  have hpad := hmoves.pad
  unfold encPad at hpad
  rw [(eadDecryptMessage_fresh hmoves).2.2]
  split
  · unfold sizeofEncrypted
    have hlo := toInt_of_fits hlen hfits
    have hrest : (pkt.len - BitVec.ofNat 32 ((opened c r.key pkt padOfs).toNat + 25)).toInt =
        pkt.len.toInt - ((opened c r.key pkt padOfs).toNat + 25 : ℕ) :=
      toInt_sub_ofNat (by omega) (by omega)
    refine (toInt_sub_ofNat (k := 3) (by decide) ?_).trans ?_
    · rw [hrest]
      omega
    · rw [hrest]
      omega
  · rfl

theorem datalen_pos_iff {c : Ciphers} {r : Crypt} (hlen : 62 ≤ len.toInt)
    (hfits : ¬len < 62 + pkt.len) :
    0 < ((eadDecryptMessage c r pkt).2.2 - 3).toInt ↔ CommandTaken c r pkt := by
  by_cases hmoves : MovesWindow c r pkt
  · rw [datalen_eq hmoves hlen hfits]
    split
    · next hhash =>
      exact ⟨fun hpos => ⟨hmoves, hhash, by omega⟩, fun htaken => by have := htaken.data; omega⟩
    · next hhash =>
      exact iff_of_false (by decide) fun htaken => hhash htaken.hash
  · rw [(eadDecryptMessage_stays hmoves).2]
    exact iff_of_false (by decide) fun htaken => hmoves htaken.counter

theorem stringAt_length_le (m : Mem) (ofs n : ℕ) : (stringAt m ofs n).length ≤ n := by
  unfold stringAt bytesAt
  refine Nat.le_trans (List.takeWhile_prefix _).length_le ?_
  rw [List.length_map, List.length_range]

/-- Without padding the NUL is put behind the message. -/
theorem nul_within_iff {pad : Byte} {datalen : ℤ} (hlen : 90 ≤ len.toInt)
    (hfits : ¬len < 62 + pkt.len) (hpos : 0 < datalen)
    (hdatalen : datalen = pkt.len.toInt - (pad.toNat + 28 : ℕ)) :
    90 + datalen.toNat + 1 ≤ len.toNat ↔ (pad = 0 → 62 + pkt.len ≠ len) := by
  have hzero : pad = 0 ↔ pad.toNat = 0 := ⟨fun h => by rw [h]; rfl, fun h => UInt8.toNat_inj.mp h⟩
  rw [hzero]
  have hlen' := BitVec.toInt_eq_toNat_cond len
  have htoInt := BitVec.toInt_eq_toNat_cond pkt.len
  have hsum : (62 + pkt.len).toNat = (62 + pkt.len.toNat) % 2 ^ 32 := BitVec.toNat_add ..
  rw [BitVec.not_lt, BitVec.le_def, hsum] at hfits
  rw [Ne, ← BitVec.toNat_inj, hsum]
  split at htoInt
  · split at hlen' <;> omega
  · omega

theorem commandAccesses_within_iff (hlen : 90 ≤ len.toInt) (hfits : ¬len < 62 + pkt.len) :
    AllWithin (Region.size len) (commandAccesses cfg o s pkt) ↔
      (CommandTaken cfg.ciphers s.crypt pkt →
        opened cfg.ciphers s.crypt.key pkt padOfs = 0 → 62 + pkt.len ≠ len) := by
  have htoNat : 90 ≤ len.toNat := by
    have htoInt := BitVec.toInt_eq_toNat_cond len
    split at htoInt <;> omega
  have hreply {n : ℕ} (hn : n ≤ 1024) : AllWithin (Region.size len) (replyAccesses n) :=
    replyAccesses_within (by omega) hn
  have htaken := datalen_pos_iff (c := cfg.ciphers) (r := s.crypt) (by omega) hfits
  have hdatalen (h : CommandTaken cfg.ciphers s.crypt pkt) :=
    datalen_eq h.counter (by omega) hfits
  unfold commandAccesses
  dsimp only
  generalize ((eadDecryptMessage cfg.ciphers s.crypt pkt).2.2 - 3).toInt = datalen at *
  split
  · next hnone =>
    exact iff_of_true allWithin_nil fun h => absurd (htaken.mpr h) (Int.not_lt.mpr hnone)
  · next hsome =>
    have hpos := Int.not_le.mp hsome
    have h := htaken.mp hpos
    have hnul := nul_within_iff hlen hfits hpos ((hdatalen h).trans (if_pos h.hash))
    rw [forall_prop_of_true h, ← hnul]
    generalize Function.update (eadDecryptMessage cfg.ciphers s.crypt pkt).2.1.data
      (28 + datalen.toNat) 0 = data
    have hcommand := stringAt_length_le data 28 datalen.toNat
    rw [allWithin_cons, allWithin_cons, allWithin_cons, within_iff, within_iff, within_iff]
    dsimp only [Region.size]
    refine ⟨fun h => h.2.2.1.resolve_left Nat.one_ne_zero, fun hend =>
      ⟨Or.inr (by omega), Or.inr (by omega), Or.inr hend, ?_⟩⟩
    split
    · split
      · rw [List.cons_append, allWithin_cons, within_iff, allWithin_append, allWithin_flatMap]
        refine ⟨Or.inr (by dsimp only [Region.size]; omega), fun bytes _ => ?_, ?_⟩
        · exact hreply (List.length_take_le _ _)
        · split
          · exact allWithin_nil
          · exact hreply (Nat.zero_le _)
      · exact allWithin_nil
    · split
      · rw [allWithin_cons, within_iff]
        exact ⟨Or.inr (by dsimp only [Region.size]; omega), hreply (Nat.zero_le _)⟩
      · exact allWithin_nil
    · exact allWithin_nil

end

section

variable {srp : Srp} (s : State srp) (cfg : Config) (pkt : EadPacket) (len : BitVec 32)

/-- The tests of handle_packet. -/
structure Passes : Prop where
  captured : ¬len < 62
  ip : pkt.etherType = 0x800
  broadcast : pkt.etherDhost = List.replicate 6 0xff
  udp : pkt.proto = 17
  port : pkt.destport = 56026
  magic : pkt.msg.magic = eadMagic
  fits : ¬len < 62 + pkt.msg.len
  nid : ¬(pkt.msg.nid ≠ 0xffff ∧ pkt.msg.nid ≠ cfg.nid)

/-- The tests of parse_message as well, for a handler that takes size bytes. -/
structure Handled (type size : ℤ) : Prop extends Passes cfg pkt len where
  request : pkt.msg.type.toInt = type
  state : ¬(typeGetPrime ≤ type ∧ s.state ≠ type)
  sid : ¬(type ≠ typePing ∧ ((pkt.msg.sid &&& 0xf000) >>> 12).toNat ≠ cfg.instanceId)
  room : sizeofPacket + size ≤ len.toInt

end

section

variable {srp : Srp} {cfg : Config} {o : Outside srp} {s t : State srp} {pkt : EadPacket}
  {len : BitVec 32}

theorem toNat_of_not_lt (h : ¬len < 62) : 62 ≤ len.toNat := by bv_omega

theorem toNat_of_toInt {n : ℕ} (h : n ≤ len.toInt) : n ≤ len.toNat := by
  have htoInt := BitVec.toInt_eq_toNat_cond len
  split at htoInt <;> omega

theorem parseMessageAccesses_within_iff {pkt : EadMsg} (hlen : 62 ≤ len.toNat) :
    AllWithin (Region.size len) (parseMessageAccesses cfg o s pkt len.toInt) ↔
      ∀ accesses size, handlerAccesses cfg o s pkt pkt.type.toInt = some (accesses, size) →
        ¬(typeGetPrime ≤ pkt.type.toInt ∧ s.state ≠ pkt.type.toInt) →
        ¬(pkt.type.toInt ≠ typePing ∧
          ((pkt.sid &&& 0xf000) >>> 12).toNat ≠ cfg.instanceId) →
        sizeofPacket + size ≤ len.toInt → AllWithin (Region.size len) accesses := by
  have hheader {ofs n : ℕ} (h : ofs + n ≤ 62) : Access.Within (Region.size len) ⟨.packet, ofs, n⟩ :=
    Or.inr (Nat.le_trans h hlen)
  unfold parseMessageAccesses
  dsimp only
  rw [allWithin_cons, and_iff_right (hheader (by decide))]
  split
  · next hstate => exact iff_of_true allWithin_nil fun _ _ _ h => absurd hstate h
  · next hstate =>
    rw [allWithin_cons, and_iff_right (hheader (by decide))]
    split
    · next hsid => exact iff_of_true allWithin_nil fun _ _ _ _ h => absurd hsid h
    · next hsid =>
      cases hhandler : handlerAccesses cfg o s pkt pkt.type.toInt with
      | none => exact iff_of_true allWithin_nil nofun
      | some handled =>
        obtain ⟨accesses, size⟩ := handled
        dsimp only
        split
        · next hroom =>
          refine iff_of_true allWithin_nil fun _ _ heq _ _ h => ?_
          cases heq
          exact absurd hroom (Int.not_lt.mpr h)
        · next hroom =>
          have hreply : Access.Within (Region.size len) ⟨.pktbuf, 42, 20⟩ :=
            Or.inr (by dsimp only [Region.size]; omega)
          rw [allWithin_cons, and_iff_right hreply]
          refine ⟨fun h _ _ heq _ _ _ => ?_, fun h => h _ _ rfl hstate hsid (Int.not_lt.mp hroom)⟩
          cases heq
          exact h

/-- The tests themselves look at the header only. -/
theorem handlePacket_within_iff_handler :
    AllWithin (Region.size len) (handlePacketAccesses cfg o s pkt len) ↔
      ∀ accesses size, handlerAccesses cfg o s pkt.msg pkt.msg.type.toInt = some (accesses, size) →
        Handled s cfg pkt len pkt.msg.type.toInt size → AllWithin (Region.size len) accesses := by
  unfold handlePacketAccesses
  split_ifs with h1 h2 h3 h4 h5 h6 h7 h8
  · exact iff_of_true allWithin_nil fun _ _ _ h => absurd h1 h.captured
  · exact iff_of_true (by simp [within_iff, Region.size, toNat_of_not_lt h1])
      fun _ _ _ h => absurd h.ip h2
  · exact iff_of_true (by simp [within_iff, Region.size, toNat_of_not_lt h1])
      fun _ _ _ h => absurd h.broadcast h3
  · exact iff_of_true (by simp [within_iff, Region.size, toNat_of_not_lt h1])
      fun _ _ _ h => absurd h.udp h4
  · exact iff_of_true (by simp [within_iff, Region.size, toNat_of_not_lt h1])
      fun _ _ _ h => absurd h.port h5
  · exact iff_of_true (by simp [within_iff, Region.size, toNat_of_not_lt h1])
      fun _ _ _ h => absurd h.magic h6
  · exact iff_of_true (by simp [within_iff, Region.size, toNat_of_not_lt h1])
      fun _ _ _ h => absurd h7 h.fits
  · exact iff_of_true (by simp [within_iff, Region.size, toNat_of_not_lt h1])
      fun _ _ _ h => absurd h8 h.nid
  · rw [allWithin_cons, within_iff, parseMessageAccesses_within_iff (toNat_of_not_lt h1)]
    refine ⟨fun h accesses size haccesses hh => h.2 accesses size haccesses hh.state hh.sid hh.room,
      fun h => ⟨Or.inr (toNat_of_not_lt h1), fun accesses size haccesses hstate hsid hroom => ?_⟩⟩
    exact h accesses size haccesses ⟨⟨h1, not_not.mp h2, not_not.mp h3, not_not.mp h4,
      not_not.mp h5, not_not.mp h6, h7, h8⟩, rfl, hstate, hsid, hroom⟩

/-- The library keeps its numbers in the places it has for them. -/
structure SrpFits (srp : Srp) : Prop where
  salt : ∀ ts, (srp.salt ts).length ≤ 32
  generated : ∀ random ts, (srp.serverGenExp random ts).2.length ≤ 256

def BFits (s : State srp) : Prop := ∀ b ∈ s.b, b.length ≤ 256

theorem setState_bFits (hsrp : SrpFits srp) {nstate : ℤ} (h : BFits s)
    (ht : setState cfg o s nstate = some t) : BFits t := by
  unfold setState at ht
  split_ifs at ht
  · cases ht
    exact h
  · obtain ⟨ts, -, rfl⟩ := Option.map_eq_some_iff.mp ht
    exact h
  · cases ht
    exact h
  · split at ht
    · cases ht
      exact h
    · cases ht
      exact h
  · split at ht
    · cases ht
      exact h
    · cases ht
      exact h
  · obtain ⟨ts, -, rfl⟩ := Option.map_eq_some_iff.mp ht
    intro b hb
    obtain rfl := Option.some.inj hb
    exact hsrp.generated o.random ts.2
  · obtain ⟨ts, -, rfl⟩ := Option.map_eq_some_iff.mp ht
    dsimp only
    split
    · exact h
    · exact h
  · cases ht
    exact h

theorem streamConsole_b (s : State srp) (console : List (List Byte)) :
    (streamConsole cfg s console).b = s.b := by
  induction console generalizing s with
  | nil => rfl
  | cons bytes rest ih => exact ih _

theorem handleSendCmd_b {msg : EadMsg} {nstate n : ℤ} {reply : Bool}
    (ht : handleSendCmd cfg o s msg nstate = some (reply, n, t)) : t.b = s.b := by
  unfold handleSendCmd at ht
  dsimp only at ht
  split at ht
  · cases ht
    rfl
  · split at ht
    · split at ht
      · split at ht
        · cases ht
          exact streamConsole_b _ _
        · cases ht
          exact streamConsole_b _ _
      · cases ht
        rfl
    · split at ht
      · cases ht
        rfl
      · cases ht
        rfl
    · cases ht
      rfl

/-- Only set_state makes a B. -/
theorem handler_bFits {msg : EadMsg} (hsrp : SrpFits srp) {type size n : ℤ} {reply : Bool}
    {run : State srp → Result srp} (h : BFits s)
    (hrun : handler cfg o msg type = some (run, size)) (ht : run s = some (reply, n, t)) :
    BFits t := by
  unfold handler at hrun
  split_ifs at hrun
  · cases hrun
    cases ht
    exact h
  · cases hrun
    obtain ⟨t', hreset, heq⟩ := Option.map_eq_some_iff.mp ht
    cases heq
    have hkept : BFits t' := setState_bFits hsrp h hreset
    exact hkept
  · cases hrun
    unfold handleGetPrime at ht
    split at ht
    · cases ht
      exact h
    · cases ht
  · cases hrun
    unfold handleSendA at ht
    dsimp only at ht
    split_ifs at ht
    · cases ht
      exact h
    · obtain ⟨b, -, heq⟩ := Option.map_eq_some_iff.mp ht
      cases heq
      exact h
  · cases hrun
    obtain ⟨ts, -, heq⟩ := Option.map_eq_some_iff.mp ht
    dsimp only at heq
    split_ifs at heq
    · cases heq
      exact h
    · cases heq
      exact h
  · cases hrun
    unfold BFits
    rw [handleSendCmd_b ht]
    exact h

theorem parseMessage_bFits {msg : EadMsg} (hsrp : SrpFits srp) {n : ℤ} (h : BFits s)
    (ht : parseMessage cfg o s msg n = some t) : BFits t := by
  unfold parseMessage at ht
  dsimp only at ht
  split_ifs at ht
  · cases ht
    exact h
  · cases ht
    exact h
  · split at ht
    · cases ht
      exact h
    · next run size hrun =>
      split_ifs at ht
      · cases ht
        exact h
      · split at ht
        · cases ht
        · next reply nstate t' ht' =>
          have hbuf (pktbuf : EadMsg) : BFits { s with pktbuf := pktbuf } := h
          have hkept : BFits t' := handler_bFits hsrp (hbuf _) hrun ht'
          split_ifs at ht
          · have hsent : BFits (t'.record (.sent t'.pktbuf)) := hkept
            exact setState_bFits hsrp hsent ht
          · exact setState_bFits hsrp hkept ht

/-- The length of a SEND_A that is not too long is positive. -/
theorem sendA_length_iff {pkt : EadMsg} (hlen : 62 ≤ len.toInt) (hfits : ¬len < 62 + pkt.len) :
    maxParamLen + 1 < (pkt.len - 1).toInt ∨ 0 ≤ (pkt.len - 1).toInt ↔ 0 < pkt.len.toInt := by
  have hone : (pkt.len - BitVec.ofNat 32 1).toInt = pkt.len.toInt - (1 : ℕ) :=
    toInt_sub_ofNat (by decide) (by have := toInt_of_fits hlen hfits; omega)
  have hlen' : (pkt.len - 1).toInt = pkt.len.toInt - 1 := hone
  rw [hlen']
  unfold maxParamLen
  omega

/-- The daemon stays within the packet and its buffers for every packet, except for a
SEND_A without data and a command without padding that ends with the packet. -/
theorem packet_within_iff {crypt : Crypt} {pktbuf : EadMsg} (hsrp : SrpFits srp)
    (hrun : Relation.ReflTransGen (Step cfg) (start srp crypt pktbuf) s) :
    AllWithin (Region.size len) (handlePacketAccesses cfg o s pkt len) ↔
      (Handled s cfg pkt len typeSendA 1 → 0 < pkt.msg.len.toInt) ∧
        (Handled s cfg pkt len typeSendCmd 28 → CommandTaken cfg.ciphers s.crypt pkt.msg →
          opened cfg.ciphers s.crypt.key pkt.msg padOfs = 0 → 62 + pkt.msg.len ≠ len) := by
  have hb : BFits s := run_preserves
    (fun s t h ⟨o, msg, len, ht⟩ => parseMessage_bFits hsrp h ht)
    hrun nofun
  rw [handlePacket_within_iff_handler]
  constructor
  · refine fun h => ⟨fun hh => ?_, fun hh => ?_⟩
    · have hlen : 63 ≤ len.toInt := hh.room
      have hwithin := h (handleSendAAccesses s pkt.msg) 1 (by rw [hh.request]; rfl)
        (by rw [hh.request]; exact hh)
      rw [handleSendA_within_iff (toNat_of_toInt hlen) hh.fits hb] at hwithin
      exact (sendA_length_iff (by omega) hh.fits).mp hwithin
    · have hwithin := h (handleSendCmdAccesses cfg o s pkt.msg) 28 (by rw [hh.request]; rfl)
        (by rw [hh.request]; exact hh)
      exact (commandAccesses_within_iff hh.room hh.fits).mp (allWithin_append.mp hwithin).2
  · rintro ⟨hsendA, hsendCmd⟩ accesses size haccesses hh
    have hlen := toNat_of_not_lt hh.captured
    unfold handlerAccesses at haccesses
    split_ifs at haccesses with h0 h2 h4 h6 h8 h10
    · cases haccesses
      exact handlePing_within hlen
    · cases haccesses
      exact handleSetUsername_within (toNat_of_toInt hh.room)
    · cases haccesses
      exact (handleGetPrime_within_iff hlen).mpr fun ts _ => hsrp.salt ts.2
    · cases haccesses
      have hroom : 63 ≤ len.toInt := hh.room
      rw [handleSendA_within_iff (toNat_of_toInt hroom) hh.fits hb,
        sendA_length_iff (by omega) hh.fits]
      exact hsendA (h6 ▸ hh)
    · cases haccesses
      exact handleSendAuth_within (toNat_of_toInt hh.room)
    · cases haccesses
      have hroom : 90 ≤ len.toInt := hh.room
      have hroom' : 90 ≤ len.toNat := toNat_of_toInt hroom
      refine allWithin_append.mpr ⟨?_, (commandAccesses_within_iff hroom hh.fits).mpr
        (hsendCmd (h10 ▸ hh))⟩
      refine (decryptAccesses_within ?_).mpr (Or.inr ?_)
      · exact length_le_of_fits (by omega) hh.fits
      · dsimp only [Region.size, sizeofEncrypted]
        omega

/-- A SEND_A with the given length and data. -/
def sendA (len : BitVec 32) (data : List Byte) : EadPacket :=
  ⟨List.replicate 6 0xff, 0x800, 17, 56026, { message 6 len data with nid := 1 }⟩

theorem packet_within_sendA : ∃ s : State sevenSrp,
    Relation.ReflTransGen (Step oneConfig) (start sevenSrp zeroCrypt zeroMsg) s ∧
      Handled s oneConfig (sendA 2 [0, 5]) 64 typeSendA 1 ∧
      AllWithin (Region.size 64)
        (handlePacketAccesses oneConfig oneOutside s (sendA 2 [0, 5]) 64) := by
  have hrun : (runMessages (loginMessages.take 2) (start sevenSrp zeroCrypt zeroMsg)).map
      (fun s => s.state) = some typeSendA := by
    decide
  obtain ⟨s, hs, hstate⟩ := Option.map_eq_some_iff.mp hrun
  refine ⟨s, runMessages_run hs, ⟨⟨by decide, rfl, rfl, rfl, rfl, rfl, by decide, by decide⟩, rfl,
    fun h => h.2 hstate, by decide, by decide⟩, ?_⟩
  refine (packet_within_iff ⟨fun _ => Nat.zero_le _, fun _ _ => Nat.le_of_ble_eq_true rfl⟩
    (runMessages_run hs)).mpr ⟨fun _ => by decide, fun hh => ?_⟩
  exact absurd hh.request (by decide)

/-- A SEND_A without data has a length of minus one. -/
theorem empty_sendA_overruns : ∃ s : State sevenSrp,
    Relation.ReflTransGen (Step oneConfig) (start sevenSrp zeroCrypt zeroMsg) s ∧
      Passes oneConfig (sendA 0 []) 63 ∧
      ¬AllWithin (Region.size 63)
        (handlePacketAccesses oneConfig oneOutside s (sendA 0 []) 63) := by
  have hrun : (runMessages (loginMessages.take 2) (start sevenSrp zeroCrypt zeroMsg)).map
      (fun s => decide (AllWithin (Region.size 63)
        (handlePacketAccesses oneConfig oneOutside s (sendA 0 []) 63))) =
      some false := by
    decide
  obtain ⟨s, hs, hfalse⟩ := Option.map_eq_some_iff.mp hrun
  exact ⟨s, runMessages_run hs, ⟨by decide, rfl, rfl, rfl, rfl, rfl, by decide, by decide⟩,
    of_decide_eq_false hfalse⟩

end

end Iot7688.Ead
