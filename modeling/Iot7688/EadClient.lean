import Iot7688.EadBounds

/-!
The memory that the handlers of the client touch for a datagram. send_packet compares the
length of the datagram with a sum of size_t, which has w bits; the handlers take the length
field for an int. A handler writes into msgbuf itself, and reads of it what was received.
-/
namespace Iot7688.EadClient

open Lib EadCrypt Ead

/-- The bytes of the datagram, the buffers, and the table of t_getpreparam by entries. -/
inductive Region
  | received
  | msgbuf
  | saltbuf
  | pwSalt
  | bbuf
  | preParams

/-- How large a region is, for a datagram of n bytes. -/
def Region.size (n : ℕ) : Region → ℕ
  | received => n
  | msgbuf => 1500
  | saltbuf => 32
  | pwSalt => 32
  | bbuf => 256
  | preParams => 5

/-- The static variables that the handlers look at. -/
structure Client where
  nid : BitVec 16
  authType : BitVec 16
  ciphers : Ciphers
  crypt : Crypt

inductive Handler
  | pong
  | prime
  | b
  | cmdData

/-- The type of message that send_packet waits for. -/
def Handler.type : Handler → BitVec 32
  | pong => 1
  | prime => 5
  | b => 7
  | cmdData => 11

def authMd5 : BitVec 16 := 1

section

variable (w : ℕ) (client : Client) (msg : EadMsg) (n : ℕ)

/-- handle_pong ends the name with a NUL and prints it when no device is asked for. -/
def handlePongAccesses : List (Access Region) :=
  let len := (msg.len - 2).toInt
  if len ≤ 0 then []
  else
    let data := Function.update msg.data (2 + len.toNat) 0
    ⟨.msgbuf, 22 + len.toNat, 1⟩ :: ⟨.received, 20, 2⟩ ::
      if client.nid = 0xffff then
        [⟨.received, 12, 2⟩, ⟨.received, 22, (stringAt data 2 len.toNat).length + 1⟩,
          ⟨.received, 14, 2⟩]
      else [⟨.received, 14, 2⟩]

/-- handle_prime. The length of the salt is a byte of the datagram, and so is the number of
the parameters. -/
def handlePrimeAccesses : List (Access Region) :=
  let len := (msg.data 1).toNat
  ⟨.received, 21, 1⟩ :: ⟨.received, 22, len⟩ :: ⟨.saltbuf, 0, len⟩ ::
    ((if client.authType = authMd5 then
        [⟨.received, 54, 32⟩, ⟨.pwSalt, 0, 32⟩, ⟨.pwSalt, 31, 1⟩]
      else []) ++ [⟨.received, 20, 1⟩, ⟨.preParams, (msg.data 0).toNat, 1⟩])

/-- handle_b. memcpy takes the int as a size_t. -/
def handleBAccesses : List (Access Region) :=
  let len := ((msg.len - 1).toInt % (2 ^ w : ℕ)).toNat
  [⟨.received, 21, len⟩, ⟨.bbuf, 0, len⟩]

/-- handle_cmd_data. -/
def handleCmdDataAccesses : List (Access Region) :=
  let datalen := ((eadDecryptMessage client.ciphers client.crypt msg).2.2 - 1).toInt
  decryptAccesses .received 20 client.ciphers client.crypt msg ++
    if datalen < 0 then []
    else if 0 < datalen then [⟨.received, 46, datalen.toNat⟩, ⟨.received, 45, 1⟩]
    else [⟨.received, 45, 1⟩]

def handlerAccesses : Handler → List (Access Region)
  | .pong => handlePongAccesses client msg
  | .prime => handlePrimeAccesses client msg
  | .b => handleBAccesses w msg
  | .cmdData => handleCmdDataAccesses client msg

/-- send_packet, for a datagram of n bytes that it reads. -/
def sendPacketAccesses (handler : Handler) : List (Access Region) :=
  if n < 20 then []
  else ⟨.received, 0, 20⟩ ::
    if n < (20 + msg.len.toNat) % 2 ^ w then []
    else if msg.magic ≠ eadMagic then []
    else if client.nid ≠ 0xffff ∧ msg.nid ≠ client.nid then []
    else if msg.type ≠ handler.type then []
    else handlerAccesses w client msg handler

/-- A datagram that send_packet gives to a handler. -/
structure Passes (handler : Handler) : Prop where
  header : ¬n < 20
  fits : ¬n < (20 + msg.len.toNat) % 2 ^ w
  magic : msg.magic = eadMagic
  nid : ¬(client.nid ≠ 0xffff ∧ msg.nid ≠ client.nid)
  type : msg.type = handler.type

/-- The datagrams with which a handler stays within the buffers. -/
def Fits : Handler → Prop
  | .pong => 2 < msg.len.toInt → 20 + msg.len.toNat < 1500 ∧
      (client.nid = 0xffff →
        0 ∈ bytesAt msg.data 2 (msg.len.toNat - 2) ∨ 20 + msg.len.toNat < n)
  | .prime => (msg.data 1).toNat ≤ 32 ∧ 22 + (msg.data 1).toNat ≤ n ∧
      (client.authType = authMd5 → 86 ≤ n) ∧ (msg.data 0).toNat < 5
  | .b => 1 ≤ msg.len.toNat ∧ msg.len.toNat ≤ 257
  | .cmdData => msg.len.toInt < 0 → 45 ≤ n

end

section

variable {w : ℕ} {client : Client} {msg : EadMsg} {n : ℕ}

/-- The length that is compared is right, or it has wrapped and the field is negative. -/
theorem length_cases (hw : 32 ≤ w) (hn : n ≤ 1500) (hfits : ¬n < (20 + msg.len.toNat) % 2 ^ w) :
    msg.len.toInt = msg.len.toNat ∧ 20 + msg.len.toNat ≤ n ∨
      msg.len.toInt < 0 ∧ -20 ≤ msg.len.toInt := by
  have hpow : 2 ^ 32 ≤ 2 ^ w := Nat.pow_le_pow_right (by decide) hw
  have hlt := msg.len.isLt
  have htoInt := BitVec.toInt_eq_toNat_cond msg.len
  rcases Nat.lt_or_ge (20 + msg.len.toNat) (2 ^ w) with hsmall | hwrap
  · rw [Nat.mod_eq_of_lt hsmall] at hfits
    rw [if_pos (by omega)] at htoInt
    exact Or.inl ⟨htoInt, by omega⟩
  · rw [if_neg (by omega)] at htoInt
    exact Or.inr (by omega)

theorem stringAt_length_eq_iff (m : Mem) (ofs k : ℕ) :
    (stringAt m ofs k).length = k ↔ 0 ∉ bytesAt m ofs k := by
  have hlen : (bytesAt m ofs k).length = k := by simp [bytesAt]
  have hprefix := List.takeWhile_prefix (fun b : Byte => decide (b ≠ 0)) (l := bytesAt m ofs k)
  have hself : (stringAt m ofs k).length = k ↔
      (bytesAt m ofs k).takeWhile (fun b => b ≠ 0) = bytesAt m ofs k :=
    ⟨fun h => hprefix.eq_of_length (h.trans hlen.symm),
      fun h => (congrArg List.length h).trans hlen⟩
  rw [hself, List.takeWhile_eq_self_iff]
  exact ⟨fun h hmem => absurd (h 0 hmem) (by decide), fun h b hb =>
    decide_eq_true fun h0 => h (h0 ▸ hb)⟩

theorem bytesAt_update {m : Mem} {ofs k : ℕ} (b : Byte) :
    bytesAt (Function.update m (ofs + k) b) ofs k = bytesAt m ofs k := by
  refine List.map_congr_left fun i hi => Function.update_of_ne ?_ b m
  have hlt := List.mem_range.mp hi
  omega

theorem handlePong_within_iff (hw : 32 ≤ w) (hn : n ≤ 1500)
    (hfits : ¬n < (20 + msg.len.toNat) % 2 ^ w) :
    AllWithin (Region.size n) (handlePongAccesses client msg) ↔ Fits client msg n .pong := by
  have hlen := length_cases hw hn hfits
  have hsub : (msg.len - 2).toInt = msg.len.toInt - (2 : ℕ) :=
    toInt_sub_ofNat (k := 2) (by decide) (by omega)
  unfold handlePongAccesses Fits
  dsimp only
  rw [hsub]
  split
  · next hnone => exact iff_of_true allWithin_nil fun h => by omega
  · next hsome =>
    obtain ⟨htoInt, hle⟩ : msg.len.toInt = msg.len.toNat ∧ 20 + msg.len.toNat ≤ n := by omega
    have hname : (msg.len.toInt - (2 : ℕ)).toNat = msg.len.toNat - 2 := by omega
    rw [forall_prop_of_true (by omega : 2 < msg.len.toInt), hname]
    have hnul := stringAt_length_eq_iff
      (Function.update msg.data (2 + (msg.len.toNat - 2)) 0) 2 (msg.len.toNat - 2)
    rw [bytesAt_update] at hnul
    have hread := stringAt_length_le (Function.update msg.data (2 + (msg.len.toNat - 2)) 0) 2
      (msg.len.toNat - 2)
    split
    · next hall =>
      rw [forall_prop_of_true hall, ← not_not (a := 0 ∈ bytesAt msg.data 2 (msg.len.toNat - 2)),
        ← hnul]
      simp only [allWithin_cons, allWithin_nil, within_iff, Region.size, and_true]
      omega
    · next hone =>
      simp only [allWithin_cons, allWithin_nil, within_iff, Region.size, and_true, hone,
        false_implies]
      omega

theorem handlePrime_within_iff :
    AllWithin (Region.size n) (handlePrimeAccesses client msg) ↔ Fits client msg n .prime := by
  unfold handlePrimeAccesses Fits
  dsimp only
  split
  · next hmd5 =>
    rw [forall_prop_of_true hmd5]
    simp only [List.cons_append, List.nil_append, allWithin_cons, allWithin_nil, within_iff,
      Region.size, and_true]
    omega
  · next hmd5 =>
    simp only [List.nil_append, allWithin_cons, allWithin_nil, within_iff, Region.size, and_true,
      hmd5, false_implies, true_and]
    omega

/-- A negative length is a very large size_t. -/
theorem handleB_within_iff (hw : 32 ≤ w) (hn : n ≤ 1500)
    (hfits : ¬n < (20 + msg.len.toNat) % 2 ^ w) :
    AllWithin (Region.size n) (handleBAccesses w msg) ↔ Fits client msg n .b := by
  have hlen := length_cases hw hn hfits
  have htoInt := BitVec.toInt_eq_toNat_cond msg.len
  have hpow : 2 ^ 32 ≤ 2 ^ w := Nat.pow_le_pow_right (by decide) hw
  have hsub : (msg.len - 1).toInt = msg.len.toInt - (1 : ℕ) :=
    toInt_sub_ofNat (k := 1) (by decide) (by omega)
  unfold handleBAccesses Fits
  simp only [allWithin_cons, allWithin_nil, within_iff, Region.size, and_true]
  rw [hsub]
  generalize 2 ^ w = sizeT at *
  rcases Int.lt_or_le (msg.len.toInt - (1 : ℕ)) 0 with hneg | hpos
  · have hcount : (msg.len.toInt - (1 : ℕ)) % sizeT = msg.len.toInt - (1 : ℕ) + sizeT := by
      rw [← Int.add_emod_right]
      exact Int.emod_eq_of_lt (by omega) (by omega)
    rw [hcount]
    split at htoInt <;> omega
  · have hcount : (msg.len.toInt - (1 : ℕ)) % sizeT = msg.len.toInt - (1 : ℕ) :=
      Int.emod_eq_of_lt hpos (by omega)
    rw [hcount]
    omega

/-- What comes out of a message, for a length that has hardly wrapped. -/
theorem decrypted_length (msg : EadMsg) (c : Ciphers) (r : Crypt) (hlen : -62 ≤ msg.len.toInt) :
    (eadDecryptMessage c r msg).2.2.toInt = 0 ∨
      (opened c r.key msg padOfs).toNat < encPad ∧
      (eadDecryptMessage c r msg).2.2.toInt =
        msg.len.toInt - ((opened c r.key msg padOfs).toNat + sizeofEncrypted : ℕ) := by
  by_cases hmoves : MovesWindow c r msg
  · rw [(eadDecryptMessage_fresh hmoves).2.2]
    split
    · have hpad := hmoves.pad
      unfold encPad at hpad
      refine Or.inr ⟨hmoves.pad, toInt_sub_ofNat ?_ ?_⟩
      · unfold sizeofEncrypted
        omega
      · unfold sizeofEncrypted
        omega
    · exact Or.inl rfl
  · rw [(eadDecryptMessage_stays hmoves).2]
    exact Or.inl rfl

theorem handleCmdData_within_iff (hw : 32 ≤ w) (hn : n ≤ 1500) (hheader : ¬n < 20)
    (hfits : ¬n < (20 + msg.len.toNat) % 2 ^ w) :
    AllWithin (Region.size n) (handleCmdDataAccesses client msg) ↔ Fits client msg n .cmdData := by
  have hlen := length_cases hw hn hfits
  have hret := decrypted_length msg client.ciphers client.crypt (by omega)
  unfold encPad sizeofEncrypted at hret
  have hsub : ((eadDecryptMessage client.ciphers client.crypt msg).2.2 - 1).toInt =
      (eadDecryptMessage client.ciphers client.crypt msg).2.2.toInt - (1 : ℕ) :=
    toInt_sub_ofNat (k := 1) (by decide) (by omega)
  unfold handleCmdDataAccesses
  dsimp only
  rw [allWithin_append, decryptAccesses_within (by dsimp only [Region.size]; omega), hsub]
  have hblocks : (msg.len = 0 ∨ 0 < msg.len.toInt.tmod encPad) ∨
      20 + sizeofEncrypted ≤ Region.size n .received ↔ (msg.len.toInt < 0 → 45 ≤ n) := by
    unfold encPad sizeofEncrypted
    dsimp only [Region.size]
    have hzero : msg.len = 0 ↔ msg.len.toInt = 0 :=
      ⟨fun h => by rw [h]; rfl, fun h => BitVec.eq_of_toInt_eq h⟩
    rw [hzero]
    rcases Int.lt_or_le msg.len.toInt 0 with hneg | hpos
    · have htmod : ¬0 < msg.len.toInt.tmod (64 : ℕ) := by
        have hflip := Int.tmod_nonneg (64 : ℕ) (by omega : 0 ≤ -msg.len.toInt)
        rw [Int.neg_tmod] at hflip
        omega
      rw [forall_prop_of_true hneg, or_iff_right (not_or.mpr ⟨Int.ne_of_lt hneg, htmod⟩)]
    · have htmod : msg.len.toInt.tmod (64 : ℕ) = msg.len.toInt % 64 :=
        Int.tmod_eq_emod_of_nonneg hpos
      rw [htmod]
      omega
  rw [hblocks]
  refine and_iff_left_of_imp fun _ => ?_
  split
  · exact allWithin_nil
  · split
    · simp only [allWithin_cons, allWithin_nil, within_iff, Region.size, and_true]
      omega
    · simp only [allWithin_cons, allWithin_nil, within_iff, Region.size, and_true]
      omega

theorem handler_within_iff (hw : 32 ≤ w) (hn : n ≤ 1500) {handler : Handler}
    (h : Passes w client msg n handler) :
    AllWithin (Region.size n) (handlerAccesses w client msg handler) ↔
      Fits client msg n handler := by
  cases handler with
  | pong => exact handlePong_within_iff hw hn h.fits
  | prime => exact handlePrime_within_iff
  | b => exact handleB_within_iff hw hn h.fits
  | cmdData => exact handleCmdData_within_iff hw hn h.header h.fits

/-- The handlers stay within the buffers, and what was received, for just these datagrams. -/
theorem datagram_within_iff (hw : 32 ≤ w) (hn : n ≤ 1500) (handler : Handler) :
    AllWithin (Region.size n) (sendPacketAccesses w client msg n handler) ↔
      (Passes w client msg n handler → Fits client msg n handler) := by
  unfold sendPacketAccesses
  split_ifs with h1 h2 h3 h4 h5
  · exact iff_of_true allWithin_nil fun h => absurd h1 h.header
  · exact iff_of_true (by simp [within_iff, Region.size, Nat.le_of_not_lt h1])
      fun h => absurd h2 h.fits
  · exact iff_of_true (by simp [within_iff, Region.size, Nat.le_of_not_lt h1])
      fun h => absurd h.magic h3
  · exact iff_of_true (by simp [within_iff, Region.size, Nat.le_of_not_lt h1])
      fun h => absurd h4 h.nid
  · exact iff_of_true (by simp [within_iff, Region.size, Nat.le_of_not_lt h1])
      fun h => absurd h.type h5
  · have hpasses : Passes w client msg n handler :=
      ⟨h1, h2, not_not.mp h3, h4, not_not.mp h5⟩
    have hheader : Access.Within (Region.size n) ⟨.received, 0, 20⟩ :=
      Or.inr (by dsimp only [Region.size]; omega)
    rw [allWithin_cons, and_iff_right hheader, handler_within_iff hw hn hpasses,
      forall_prop_of_true hpasses]

/-- A client that logs in to a device, before it has a key. -/
def oneClient : Client := ⟨1, 0, clear, zeroCrypt⟩

/-- A datagram of a device, with the given type, length and data. -/
def datagram (type len : BitVec 32) (data : List Byte) : EadMsg :=
  { message type len data with nid := 1 }

theorem datagram_within_b : Passes 32 oneClient (datagram 7 2 [0, 9]) 22 .b ∧
    AllWithin (Region.size 22) (sendPacketAccesses 32 oneClient (datagram 7 2 [0, 9]) 22 .b) :=
  ⟨⟨by decide, by decide, rfl, by decide, rfl⟩,
    (datagram_within_iff (by decide) (by decide) .b).mpr fun _ => ⟨by decide, by decide⟩⟩

/-- The length of the salt is larger than its buffer. -/
theorem long_salt_overruns : Passes 32 oneClient (datagram 5 66 (0 :: 33 :: [])) 86 .prime ∧
    ¬AllWithin (Region.size 86)
      (sendPacketAccesses 32 oneClient (datagram 5 66 (0 :: 33 :: [])) 86 .prime) :=
  ⟨⟨by decide, by decide, rfl, by decide, rfl⟩, by decide⟩

end

end Iot7688.EadClient
