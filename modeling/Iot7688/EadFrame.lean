import Iot7688.Ead
import Iot7688.Lib.OnesComplement

/-!
The frame of a reply as its bytes. The headers are those of the request with the addresses
turned round; lengths and checksums are put in anew. The checksum of UDP is made like the
one of IP, although a checksum of zero stands for none in UDP.
-/
namespace Iot7688.Ead

open Lib

/-- A 16-bit field in network order. -/
def putField (m : Mem) (ofs : ℕ) (x : BitVec 16) : Mem :=
  m.copy ofs 2 fun i => if i = 0 then ⟨x.extractLsb' 8 8⟩ else ⟨x.extractLsb' 0 8⟩

def getField (m : Mem) (ofs : ℕ) : BitVec 16 := word16 (m ofs) (m (ofs + 1))

/-- chksum of a number of bytes. -/
def chksum (sum : BitVec 16) : List Byte → BitVec 16
  | [] => sum
  | [a] => addCarry sum (word16 a 0)
  | a :: b :: rest => chksum (addCarry sum (word16 a b)) rest

/-- What is put into a checksum field for a sum. -/
def chksumField (sum : BitVec 16) : BitVec 16 := ~~~(if sum = 0 then 0xffff else sum)

/-- The length of the IP datagram for the message in the buffer. -/
def datagramLen (pktbuf : Mem) : BitVec 16 := 48 + (loadWord .big (pktbuf.shift 46)).setWidth 16

section

variable (ethmac pktbuf pkt : Mem)

/-- The headers of the request, with the addresses, and the length of the datagram. -/
def cloneHeader : Mem :=
  let m := pktbuf.copy 0 42 pkt
  let m := m.copy 6 6 ethmac
  let m := m.copy 0 6 (pkt.shift 6)
  let m := putField m 16 (datagramLen pktbuf)
  let m := m.copy 26 4 (pkt.shift 58)
  m.copy 30 4 (pkt.shift 26)

def putIpChksum (m : Mem) : Mem :=
  let m := putField m 24 0
  putField m 24 (chksumField (chksum 0 (bytesAt m 14 20)))

/-- The ports are turned round, and len is what is left without the IP header. -/
def putUdpHeader (m : Mem) (len : BitVec 16) : Mem :=
  let m := m.copy 34 2 (pkt.shift 36)
  let m := m.copy 36 2 (pkt.shift 34)
  putField m 38 len

def putUdpChksum (m : Mem) (len : BitVec 16) : Mem :=
  let m := putField m 40 0
  let sum := len + 17
  let sum := chksum sum (bytesAt m 26 8)
  let sum := chksum sum (bytesAt m 34 len.toNat)
  putField m 40 (chksumField sum)

/-- ead_send_packet_clone: pktbuf, of which frameLen bytes are sent. -/
def eadSendPacketClone : Mem :=
  let m := putIpChksum (cloneHeader ethmac pktbuf pkt)
  let len := datagramLen pktbuf - 20
  putUdpChksum (putUdpHeader pkt m len) len

def frameLen : ℕ := 62 + (loadWord .big (pktbuf.shift 46)).toNat

end

/-- What the UDP checksum is about, for a segment of n bytes. -/
def pseudoSegment (frame : Mem) (n : ℕ) : List Byte :=
  bytesAt frame 26 8 ++ 0 :: 17 :: bytesAt frame 38 2 ++ bytesAt frame 34 n

/-- A frame of n bytes that a receiver takes, and whose UDP checksum it looks at. -/
structure Verifies (frame : Mem) (n : ℕ) : Prop where
  ipLen : (getField frame 16).toNat = n - 14
  udpLen : (getField frame 38).toNat = n - 34
  ipSum : onesSum (bytesAt frame 14 20) = 0xffff
  udpChksum : getField frame 40 ≠ 0
  udpSum : onesSum (pseudoSegment frame (n - 34)) = 0xffff

/-- The pseudo header and the segment of the reply, without a checksum. -/
def summed (pktbuf pkt : Mem) : List Byte :=
  let len := bytesAt (putField pktbuf 0 (datagramLen pktbuf - 20)) 0 2
  bytesAt pkt 58 4 ++ bytesAt pkt 26 4 ++ 0 :: 17 :: len ++ bytesAt pkt 36 2 ++ bytesAt pkt 34 2 ++
    len ++ 0 :: 0 :: bytesAt pktbuf 42 (20 + (loadWord .big (pktbuf.shift 46)).toNat)

section

variable {m : Mem} {ofs n : ℕ} {x : BitVec 16}

theorem getField_putField : getField (putField m ofs x) ofs = x := by
  unfold getField putField
  rw [Mem.copy_inside m _ (by decide : 1 < 2), ← Nat.add_zero ofs,
    Mem.copy_inside m _ (by decide : 0 < 2)]
  apply BitVec.eq_of_toNat_eq
  have hlt := x.isLt
  rw [if_pos rfl, if_neg Nat.one_ne_zero, toNat_word16]
  show 256 * (x.extractLsb' 8 8).toNat + (x.extractLsb' 0 8).toNat = x.toNat
  rw [BitVec.extractLsb'_toNat, BitVec.extractLsb'_toNat, Nat.shiftRight_eq_div_pow,
    Nat.shiftRight_eq_div_pow]
  omega

theorem bytesAt_length : (bytesAt m ofs n).length = n := by simp [bytesAt]

theorem bytesAt_add (m : Mem) (ofs n k : ℕ) :
    bytesAt m ofs (n + k) = bytesAt m ofs n ++ bytesAt m (ofs + n) k := by
  unfold bytesAt
  rw [List.range_add, List.map_append, List.map_map]
  congr 1
  exact List.map_congr_left fun i _ => congrArg m (Nat.add_assoc ofs n i).symm

theorem bytesAt_eq {m' : Mem} {ofs' : ℕ} (h : ∀ i, i < n → m (ofs + i) = m' (ofs' + i)) :
    bytesAt m ofs n = bytesAt m' ofs' n :=
  List.map_congr_left fun i hi => h i (List.mem_range.mp hi)

theorem bytesAt_congr {m' : Mem} (h : ∀ y, ofs ≤ y → y < ofs + n → m y = m' y) :
    bytesAt m ofs n = bytesAt m' ofs n :=
  bytesAt_eq fun i hi => h _ (Nat.le_add_right _ _) (by omega)

theorem wordSum_bytesAt_two : wordSum (bytesAt m ofs 2) = (getField m ofs).toNat := by
  show (word16 (m (ofs + 0)) (m (ofs + 1))).toNat + 0 = _
  rfl

theorem toNat_chksum (sum : BitVec 16) (l : List Byte) :
    (chksum sum l).toNat = onesFold (sum.toNat + wordSum l) := by
  induction l using wordSum.induct generalizing sum with
  | case1 =>
    rw [chksum, wordSum, Nat.add_zero, onesFold_of_lt sum.isLt]
  | case2 a => rw [chksum, wordSum, toNat_addCarry]
  | case3 a b rest ih =>
    rw [chksum, ih, wordSum, toNat_addCarry, onesFold_onesFold_add, Nat.add_assoc]

theorem getField_eq_zero : getField m ofs = 0 ↔ m ofs = 0 ∧ m (ofs + 1) = 0 := by
  unfold getField
  rw [← BitVec.toNat_inj, toNat_word16, ← UInt8.toNat_inj, ← UInt8.toNat_inj]
  show _ = 0 ↔ _ = 0 ∧ _ = 0
  omega

theorem putField_outside {y : ℕ} (hy : y < ofs ∨ ofs + 2 ≤ y) : putField m ofs x y = m y :=
  Mem.copy_outside m _ hy

/-- A field that was zero adds its number to the sum, if it is a word of it. -/
theorem wordSum_putField {k : ℕ} (hk : k % 2 = 0) (hn : k + 2 ≤ n)
    (hzero : getField m (ofs + k) = 0) :
    wordSum (bytesAt (putField m (ofs + k) x) ofs n) = wordSum (bytesAt m ofs n) + x.toNat := by
  obtain ⟨r, rfl⟩ : ∃ r, n = k + (2 + r) := ⟨n - k - 2, by omega⟩
  have hfront : bytesAt (putField m (ofs + k) x) ofs k = bytesAt m ofs k :=
    bytesAt_congr fun y _ hy => putField_outside (Or.inl hy)
  have hback : bytesAt (putField m (ofs + k) x) (ofs + k + 2) r = bytesAt m (ofs + k + 2) r :=
    bytesAt_congr fun y hy _ => putField_outside (Or.inr hy)
  have hsum (m' : Mem) : wordSum (bytesAt m' ofs (k + (2 + r))) = wordSum (bytesAt m' ofs k) +
      ((getField m' (ofs + k)).toNat + wordSum (bytesAt m' (ofs + k + 2) r)) := by
    rw [bytesAt_add, bytesAt_add, wordSum_append _ (by rw [bytesAt_length]; exact hk),
      wordSum_append _ (by rw [bytesAt_length]), wordSum_bytesAt_two]
  rw [hsum, hsum m, hfront, hback, getField_putField, hzero,
    show (0 : BitVec 16).toNat = 0 from rfl]
  omega

theorem toNat_chksumField {sum : BitVec 16} (h : sum ≠ 0) :
    (chksumField sum).toNat = 0xffff - sum.toNat := by
  unfold chksumField
  rw [if_neg h, BitVec.toNat_not]

theorem putIpChksum_sum (hlen : getField m 16 ≠ 0) :
    onesSum (bytesAt (putIpChksum m) 14 20) = 0xffff := by
  unfold putIpChksum
  dsimp only
  generalize hm0 : putField m 24 0 = m0
  have hfield (y : ℕ) (hy : y = 16 ∨ y = 17) : m0 y = m y := by
    rw [← hm0]
    exact putField_outside (by omega)
  have hS : wordSum (bytesAt m0 14 20) ≠ 0 := by
    rw [Ne, getField_eq_zero, not_and_or] at hlen
    rcases hlen with h | h
    · refine wordSum_ne_zero (List.mem_map.mpr ⟨2, List.mem_range.mpr (by decide), rfl⟩) ?_
      rw [hfield _ (Or.inl rfl)]
      exact h
    · refine wordSum_ne_zero (List.mem_map.mpr ⟨3, List.mem_range.mpr (by decide), rfl⟩) ?_
      rw [hfield _ (Or.inr rfl)]
      exact h
  have hsum : (chksum 0 (bytesAt m0 14 20)).toNat = onesFold (wordSum (bytesAt m0 14 20)) := by
    rw [toNat_chksum, show (0 : BitVec 16).toNat = 0 from rfl, Nat.zero_add]
  have hne : chksum 0 (bytesAt m0 14 20) ≠ 0 := by
    rw [Ne, ← BitVec.toNat_inj, hsum]
    exact fun h => hS (onesFold_eq_zero.mp h)
  unfold onesSum
  rw [show 24 = 14 + 10 from rfl, wordSum_putField (by decide) (by decide)
    (by rw [← hm0]; exact getField_putField), toNat_chksumField hne, hsum]
  exact onesFold_complement hS

theorem wordSum_pseudoSegment (m : Mem) (n : ℕ) : wordSum (pseudoSegment m n) =
    wordSum (bytesAt m 26 8) + 17 + (getField m 38).toNat + wordSum (bytesAt m 34 n) := by
  unfold pseudoSegment
  rw [wordSum_append _ (by simp [bytesAt_length]), wordSum_append _ (by rw [bytesAt_length]),
    wordSum, wordSum_bytesAt_two, toNat_word16, show UInt8.toNat 0 = 0 from rfl,
    show UInt8.toNat 17 = 17 from rfl]
  omega

/-- The checksum fills up the sum, and it is zero if there is nothing to fill up. -/
theorem putUdpChksum_sum {len : BitVec 16} (hlen : getField m 38 = len) (hmin : 8 ≤ len.toNat)
    (hmax : len.toNat + 17 < 2 ^ 16) :
    onesSum (pseudoSegment (putUdpChksum m len) len.toNat) = 0xffff ∧
      (getField (putUdpChksum m len) 40 = 0 ↔
        0xffff ∣ wordSum (pseudoSegment (putField m 40 0) len.toNat)) := by
  unfold putUdpChksum
  dsimp only
  generalize hm0 : putField m 40 0 = m0
  have hzero : getField m0 40 = 0 := by
    rw [← hm0]
    exact getField_putField
  have hlen0 : getField m0 38 = len := by
    rw [← hlen, ← hm0]
    unfold getField
    rw [putField_outside (by decide), putField_outside (by decide)]
  have hS : wordSum (pseudoSegment m0 len.toNat) ≠ 0 := by
    rw [wordSum_pseudoSegment]
    omega
  generalize hsum : chksum (chksum (len + 17) (bytesAt m0 26 8)) (bytesAt m0 34 len.toNat) = sum
  have htoNat : sum.toNat = onesFold (wordSum (pseudoSegment m0 len.toNat)) := by
    have hstart : (len + 17).toNat = len.toNat + 17 := by
      rw [BitVec.toNat_add, show (17 : BitVec 16).toNat = 17 from rfl, Nat.mod_eq_of_lt hmax]
    rw [← hsum, toNat_chksum, toNat_chksum, onesFold_onesFold_add, hstart, wordSum_pseudoSegment,
      hlen0]
    congr 1
    omega
  have hne : sum ≠ 0 := by
    rw [Ne, ← BitVec.toNat_inj, htoNat]
    exact fun h => hS (onesFold_eq_zero.mp h)
  constructor
  · have houtside : bytesAt (putField m0 40 (chksumField sum)) 26 8 = bytesAt m0 26 8 :=
      bytesAt_congr fun y _ hy => putField_outside (Or.inl (by omega))
    have hfield : getField (putField m0 40 (chksumField sum)) 38 = getField m0 38 := by
      unfold getField
      rw [putField_outside (by decide), putField_outside (by decide)]
    have hsegment : wordSum (bytesAt (putField m0 (34 + 6) (chksumField sum)) 34 len.toNat) =
        wordSum (bytesAt m0 34 len.toNat) + (chksumField sum).toNat :=
      wordSum_putField (by decide) hmin hzero
    unfold onesSum
    rw [wordSum_pseudoSegment, houtside, hfield, hsegment, toNat_chksumField hne, htoNat,
      ← Nat.add_assoc, ← wordSum_pseudoSegment]
    exact onesFold_complement hS
  · rw [getField_putField, ← BitVec.toNat_inj, toNat_chksumField hne, htoNat, ← onesFold_eq_max hS]
    have hlt := onesFold_lt (wordSum (pseudoSegment m0 len.toNat))
    show _ = 0 ↔ _
    omega

end

section

variable {ethmac pktbuf pkt m : Mem} {y : ℕ} {len : BitVec 16}

theorem cloneHeader_outside (hy : 42 ≤ y) : cloneHeader ethmac pktbuf pkt y = pktbuf y := by
  unfold cloneHeader
  rw [Mem.copy_outside _ _ (by omega), Mem.copy_outside _ _ (by omega), putField_outside (by omega),
    Mem.copy_outside _ _ (by omega), Mem.copy_outside _ _ (by omega),
    Mem.copy_outside _ _ (by omega)]

theorem cloneHeader_length (ethmac pktbuf pkt : Mem) :
    getField (cloneHeader ethmac pktbuf pkt) 16 = datagramLen pktbuf := by
  rw [← getField_putField (x := datagramLen pktbuf)]
  unfold cloneHeader getField
  dsimp only
  rw [Mem.copy_outside _ _ (by omega), Mem.copy_outside _ _ (by omega),
    Mem.copy_outside _ _ (by omega), Mem.copy_outside _ _ (by omega)]

theorem putIpChksum_outside (hy : y < 24 ∨ 26 ≤ y) : putIpChksum m y = m y := by
  unfold putIpChksum
  rw [putField_outside (by omega), putField_outside (by omega)]

theorem putUdpHeader_outside (hy : y < 34 ∨ 40 ≤ y) : putUdpHeader pkt m len y = m y := by
  unfold putUdpHeader
  rw [putField_outside (by omega), Mem.copy_outside _ _ (by omega),
    Mem.copy_outside _ _ (by omega)]

theorem putUdpChksum_outside (hy : y < 40 ∨ 42 ≤ y) : putUdpChksum m len y = m y := by
  unfold putUdpChksum
  rw [putField_outside (by omega), putField_outside (by omega)]

theorem putUdpChksum_field {ofs : ℕ} (h : ofs + 2 ≤ 40) :
    getField (putUdpChksum m len) ofs = getField m ofs := by
  unfold getField
  rw [putUdpChksum_outside (by omega), putUdpChksum_outside (by omega)]

theorem putUdpHeader_length : getField (putUdpHeader pkt m len) 38 = len := getField_putField

/-- The addresses of the reply are the ip of the message and the source of the request. -/
theorem cloneHeader_addresses (ethmac pktbuf pkt : Mem) :
    bytesAt (cloneHeader ethmac pktbuf pkt) 26 8 = bytesAt pkt 58 4 ++ bytesAt pkt 26 4 := by
  unfold cloneHeader
  dsimp only
  rw [bytesAt_add _ 26 4 4]
  refine congrArg₂ (· ++ ·) ?_ ?_
  · refine bytesAt_eq fun i hi => ?_
    rw [Mem.copy_outside _ _ (by omega), Mem.copy_inside _ _ hi, Mem.shift_apply]
  · exact bytesAt_eq fun i hi => Mem.copy_inside _ _ hi

theorem putUdpHeader_bytes : bytesAt (putUdpHeader pkt m len) 34 6 =
    bytesAt pkt 36 2 ++ bytesAt pkt 34 2 ++ bytesAt (putField pktbuf 0 len) 0 2 := by
  unfold putUdpHeader
  dsimp only
  rw [bytesAt_add _ 34 4 2, bytesAt_add _ 34 2 2]
  refine congrArg₂ (· ++ ·) (congrArg₂ (· ++ ·) ?_ ?_) ?_
  · refine bytesAt_eq fun i hi => ?_
    rw [putField_outside (by omega), Mem.copy_outside _ _ (by omega), Mem.copy_inside _ _ hi,
      Mem.shift_apply]
  · refine bytesAt_eq fun i hi => ?_
    rw [putField_outside (by omega), Mem.copy_inside _ _ hi, Mem.shift_apply]
  · refine bytesAt_eq fun i hi => ?_
    unfold putField
    rw [Mem.copy_inside _ _ hi, Mem.copy_inside _ _ hi]

/-- The frame in front of its UDP checksum. -/
def headers (ethmac pktbuf pkt : Mem) : Mem :=
  putUdpHeader pkt (putIpChksum (cloneHeader ethmac pktbuf pkt)) (datagramLen pktbuf - 20)

theorem headers_addresses : bytesAt (putField (headers ethmac pktbuf pkt) 40 0) 26 8 =
    bytesAt pkt 58 4 ++ bytesAt pkt 26 4 := by
  rw [← cloneHeader_addresses ethmac]
  refine bytesAt_congr fun y hy hlt => ?_
  unfold headers
  rw [putField_outside (by omega), putUdpHeader_outside (by omega), putIpChksum_outside (by omega)]

theorem headers_message {y : ℕ} (hy : 42 ≤ y) :
    putField (headers ethmac pktbuf pkt) 40 0 y = pktbuf y := by
  unfold headers
  rw [putField_outside (by omega), putUdpHeader_outside (by omega), putIpChksum_outside (by omega),
    cloneHeader_outside hy]

theorem headers_length : getField (headers ethmac pktbuf pkt) 16 = datagramLen pktbuf := by
  rw [← cloneHeader_length ethmac pktbuf pkt]
  unfold headers getField
  rw [putUdpHeader_outside (by omega), putUdpHeader_outside (by omega),
    putIpChksum_outside (by omega), putIpChksum_outside (by omega)]

theorem summed_eq {k : ℕ} (hk : k = 28 + (loadWord .big (pktbuf.shift 46)).toNat) :
    pseudoSegment (putField (headers ethmac pktbuf pkt) 40 0) k = summed pktbuf pkt := by
  have hports : bytesAt (putField (headers ethmac pktbuf pkt) 40 0) 34 6 =
      bytesAt pkt 36 2 ++ bytesAt pkt 34 2 ++
        bytesAt (putField pktbuf 0 (datagramLen pktbuf - 20)) 0 2 := by
    rw [← putUdpHeader_bytes (m := putIpChksum (cloneHeader ethmac pktbuf pkt))]
    exact bytesAt_congr fun y _ hlt => putField_outside (Or.inl (by omega))
  have hlen : bytesAt (putField (headers ethmac pktbuf pkt) 40 0) 38 2 =
      bytesAt (putField pktbuf 0 (datagramLen pktbuf - 20)) 0 2 := by
    refine bytesAt_eq fun i hi => ?_
    rw [putField_outside (by omega)]
    unfold headers putUdpHeader putField
    rw [Mem.copy_inside _ _ hi, Mem.copy_inside _ _ hi]
  have hzero : bytesAt (putField (headers ethmac pktbuf pkt) 40 0) 40 2 = [0, 0] := rfl
  have hmessage (n : ℕ) :
      bytesAt (putField (headers ethmac pktbuf pkt) 40 0) 42 n = bytesAt pktbuf 42 n :=
    bytesAt_congr fun y hy _ => headers_message hy
  unfold pseudoSegment summed
  rw [headers_addresses, hlen, hk, show 28 = 6 + 22 from rfl, Nat.add_assoc, bytesAt_add _ 34 6,
    hports, show 22 = 2 + 20 from rfl, Nat.add_assoc, bytesAt_add _ (34 + 6) 2, hzero, hmessage]
  simp only [List.append_assoc, List.cons_append, List.nil_append]

/-- The frame of a reply that fits its buffer is taken by the receiver, except when the sum
without the checksum is already complete. -/
theorem frame_verifies_iff (ethmac pktbuf pkt : Mem) (hfit : frameLen pktbuf ≤ 1600) :
    Verifies (eadSendPacketClone ethmac pktbuf pkt) (frameLen pktbuf) ↔
      ¬0xffff ∣ wordSum (summed pktbuf pkt) := by
  have hframe : eadSendPacketClone ethmac pktbuf pkt =
      putUdpChksum (headers ethmac pktbuf pkt) (datagramLen pktbuf - 20) := rfl
  unfold frameLen at hfit ⊢
  have hdatagram : (datagramLen pktbuf).toNat = 48 + (loadWord .big (pktbuf.shift 46)).toNat := by
    unfold datagramLen
    rw [BitVec.toNat_add, BitVec.toNat_setWidth, show (48 : BitVec 16).toNat = 48 from rfl]
    omega
  have hsegment : (datagramLen pktbuf - 20).toNat =
      28 + (loadWord .big (pktbuf.shift 46)).toNat := by
    rw [BitVec.toNat_sub, hdatagram, show (20 : BitVec 16).toNat = 20 from rfl]
    omega
  obtain ⟨hsum, hzero⟩ := putUdpChksum_sum (m := headers ethmac pktbuf pkt) putUdpHeader_length
    (by omega) (by omega)
  rw [summed_eq hsegment] at hzero
  rw [← hzero, ← hframe]
  rw [← hframe] at hsum
  refine ⟨fun h => h.udpChksum, fun hne => ⟨?_, ?_, ?_, hne, ?_⟩⟩
  · rw [hframe, putUdpChksum_field (by decide), headers_length, hdatagram]
    omega
  · rw [hframe, putUdpChksum_field (by decide), show getField (headers ethmac pktbuf pkt) 38 =
      datagramLen pktbuf - 20 from putUdpHeader_length, hsegment]
    omega
  · have hip : bytesAt (eadSendPacketClone ethmac pktbuf pkt) 14 20 =
        bytesAt (putIpChksum (cloneHeader ethmac pktbuf pkt)) 14 20 := by
      refine bytesAt_congr fun y _ hlt => ?_
      rw [hframe, putUdpChksum_outside (by omega)]
      exact putUdpHeader_outside (by omega)
    rw [hip]
    refine putIpChksum_sum ?_
    rw [cloneHeader_length, Ne, ← BitVec.toNat_inj, hdatagram]
    show ¬48 + _ = 0
    omega
  · rw [show 62 + (loadWord .big (pktbuf.shift 46)).toNat - 34 =
      (datagramLen pktbuf - 20).toNat by omega]
    exact hsum

/-- A user name from 192.168.1.2 with the given source port, and the reply to it. -/
def oneRequest (port : Byte × Byte) : Mem := fun y =>
  ([192, 168, 1, 2, 255, 255, 255, 255, port.1, port.2, 0xda, 0xda] ++ List.replicate 20 0 ++
    [1, 1, 1, 1]).getD (y - 26) 0

def oneReply : Mem := fun y =>
  [0xda, 0xda, 0xca, 0xfe, 0, 0, 0, 0, 0, 0, 0, 3, 0, 1].getD (y - 42) 0

theorem frame_verifies_reply :
    Verifies (eadSendPacketClone (fun _ => 0) oneReply (oneRequest (0x80, 0))) 62 :=
  (frame_verifies_iff (fun _ => 0) oneReply (oneRequest (0x80, 0))
    (by decide +kernel)).mpr (by decide +kernel)

/-- The checksum of this reply comes out as zero. -/
theorem complete_sum_unchecked :
    ¬Verifies (eadSendPacketClone (fun _ => 0) oneReply (oneRequest (0xbb, 0x51))) 62 :=
  fun h => h.udpChksum (by decide +kernel)

end

end Iot7688.Ead
