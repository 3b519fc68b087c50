import Iot7688.Lib.Memory

/-!
genMacAddr: the MAC addresses in the factory partition, from two EEPROMs or from random
numbers. The calls on the I2C port are tested for negative results only, and one buffer
on the stack receives the bytes of both chips.
-/
namespace Iot7688.GenMacAddr

open Lib

/-- An EEPROM, and its address counter. -/
structure Chip where
  cells : Mem
  counter : ℕ

/-- The results of the three calls for a chip; none is a negative one. A write may take
the address byte or nothing, a read may return less than it is asked for. -/
structure Calls where
  ioctl : Bool
  write : Option Bool
  read : Option (Fin 7)

/-- The place of the address in a chip. -/
def macPlace : ℕ := 0xfa

def Chip.address (c : Chip) : Mem := c.cells.shift macPlace

/-- The bytes that a chip sends, with or without a new address. -/
def Chip.sends (c : Chip) (taken : Bool) : Mem :=
  fun i => c.cells (((if taken then macPlace else c.counter) + i) % 256)

/-- The buffer when a chip has sent its bytes. -/
def received (buf : Mem) (c : Chip) (r : Calls) : Mem :=
  match r.read with
  | none => buf
  | some n => buf.copy 0 n (c.sends (r.write = some true))

def readChip (buf : Mem) (c : Chip) (r : Calls) : Option Mem :=
  if !r.ioctl then none
  else if r.write.isNone then none
  else if r.read.isNone then none
  else some (received buf c r)

/-- The OUIs of Microchip. -/
def isMicrochip (buf : Mem) : Bool :=
  let l := (buf 0).toNat * 2 ^ 16 + (buf 1).toNat * 2 ^ 8 + (buf 2).toNat
  l = 0xD88039 || l = 0x001EC0 || l = 0x0004A3

/-- gEepromMacAddr when a chip has been read. -/
def eepromMacAddr (buf : Mem) : Mem := if isMicrochip buf then buf else fun _ => 0xff

/-- What the program meets: its command line, the I2C port and both chips, the factory
partition, and a number of rand. -/
structure World where
  paramOk : Bool
  showVersion : Bool
  port : Bool
  stack : Mem
  chip1 : Chip
  calls1 : Calls
  chip2 : Chip
  calls2 : Calls
  mtdContent : Option Mem
  rand : ℕ

def readEepromMacAddr (w : World) : Option (Mem × Mem) :=
  if !w.port then none
  else
    match readChip w.stack w.chip1 w.calls1 with
    | none => none
    | some buf1 =>
        match readChip buf1 w.chip2 w.calls2 with
        | none => none
        | some buf2 => some (eepromMacAddr buf1, eepromMacAddr buf2)

def randomMacEthPrefix : ℕ := 0x14991B
def randomMacWifiPrefix : ℕ := 0x1A4CF3

def randMac (oui l : ℕ) : Mem := fun i =>
  if i < 3 then (oui >>> (8 * (2 - i))).toUInt8 else (l >>> (8 * (5 - i))).toUInt8

/-- memcmp of an address with an address of ones. -/
def isInvalid (mac : Mem) : Bool := (List.range 6).all fun i => mac i = 0xff

def orRandom (mac : Mem) (oui l : ℕ) : Mem := if isInvalid mac then randMac oui l else mac

def mtdOffsetLanMac : ℕ := 0x28
def mtdOffsetWifiMac : ℕ := 0x04

def hasSignature (m : Mem) : Bool := m 0 = 0x28 && m 1 = 0x76

def signature : Mem := fun i => [0x28, 0x76, 0x00, 0x02].getD i 0

/-- The contents of the partition with both addresses and the signature. -/
def update (m mac1 mac2 : Mem) : Mem :=
  let m := (m.copy mtdOffsetLanMac 6 mac1).copy mtdOffsetWifiMac 6 mac2
  if hasSignature m then m else m.copy 0 4 signature

/-- Go, up to WriteOutput: what is written, or none. -/
def go (w : World) : Option Mem :=
  if !w.paramOk then none
  else if w.showVersion then none
  else
    match readEepromMacAddr w with
    | none => none
    | some (mac1, mac2) =>
        match w.mtdContent with
        | none => none
        | some m => some (update m (orRandom mac1 randomMacEthPrefix w.rand)
            (orRandom mac2 randomMacWifiPrefix w.rand))

/-- The address of a chip, read as a whole, with one of the OUIs. -/
structure Own (c : Chip) (r : Calls) (mac : Mem) : Prop where
  complete : r.read = some 6
  same : ∀ i, i < 6 → mac i = c.address i
  microchip : isMicrochip mac = true

/-- A fixed prefix and random bytes. -/
def Random (oui l : ℕ) (mac : Mem) : Prop := ∀ i, i < 6 → mac i = randMac oui l i

structure Provisioned (w : World) (factory out : Mem) : Prop where
  frame : ∀ i, ¬(mtdOffsetWifiMac ≤ i ∧ i < mtdOffsetWifiMac + 6) →
    ¬(mtdOffsetLanMac ≤ i ∧ i < mtdOffsetLanMac + 6) → ¬(hasSignature factory = false ∧ i < 4) →
      out i = factory i
  lan : Own w.chip1 w.calls1 (out.shift mtdOffsetLanMac) ∨
    Random randomMacEthPrefix w.rand (out.shift mtdOffsetLanMac)
  wifi : Own w.chip2 w.calls2 (out.shift mtdOffsetWifiMac) ∨
    Random randomMacWifiPrefix w.rand (out.shift mtdOffsetWifiMac)
  distinct : (∃ i, i < 6 ∧ w.chip1.address i ≠ w.chip2.address i) →
    ∃ i, i < 6 ∧ out (mtdOffsetLanMac + i) ≠ out (mtdOffsetWifiMac + i)

/-- When the buffer begins with one of the OUIs, the read has filled all of it with the
address of the chip. -/
def ReadWhole (buf : Mem) (c : Chip) (r : Calls) : Prop :=
  isMicrochip (received buf c r) = true →
    r.read = some 6 ∧ ∀ i, i < 6 → received buf c r i = c.address i

section

variable {w : World} {buf mac mac' m factory out : Mem} {c : Chip} {r : Calls} {oui l : ℕ}

theorem isMicrochip_congr (h : ∀ i, i < 6 → mac i = mac' i) : isMicrochip mac = isMicrochip mac' := by
  unfold isMicrochip
  rw [h 0 (by omega), h 1 (by omega), h 2 (by omega)]

theorem randMac_oui (oui l : ℕ) : randMac oui l 0 = (oui >>> 16).toUInt8 ∧
    randMac oui l 1 = (oui >>> 8).toUInt8 ∧ randMac oui l 2 = (oui >>> 0).toUInt8 := ⟨rfl, rfl, rfl⟩

/-- The prefixes are no OUIs of Microchip. -/
theorem isMicrochip_randMac (houi : oui = randomMacEthPrefix ∨ oui = randomMacWifiPrefix) (l : ℕ) :
    isMicrochip (randMac oui l) = false := by
  obtain ⟨h0, h1, h2⟩ := randMac_oui oui l
  unfold isMicrochip
  rw [h0, h1, h2]
  rcases houi with rfl | rfl
  · decide
  · decide

theorem isInvalid_eepromMacAddr (buf : Mem) : isInvalid (eepromMacAddr buf) = !isMicrochip buf := by
  unfold eepromMacAddr
  cases houi : isMicrochip buf with
  | false => rfl
  | true =>
    -- no OUI begins with ones
    have hfirst : buf 0 ≠ 0xff := by
      intro hones
      have h1 := (buf 1).toNat_lt
      have h2 := (buf 2).toNat_lt
      have hvalue : (buf 0).toNat = 255 := congrArg UInt8.toNat hones
      unfold isMicrochip at houi
      simp only [Bool.or_eq_true, decide_eq_true_eq] at houi
      omega
    refine Bool.eq_false_iff.mpr fun hall => hfirst ?_
    exact of_decide_eq_true (List.all_eq_true.mp hall 0 (by decide))

/-- The address of a place: what was received, or random bytes. -/
theorem orRandom_eepromMacAddr (buf : Mem) (oui l : ℕ) : orRandom (eepromMacAddr buf) oui l =
    if isMicrochip buf then buf else randMac oui l := by
  rw [orRandom, isInvalid_eepromMacAddr]
  unfold eepromMacAddr
  cases isMicrochip buf <;> rfl

/-- An address is right exactly when its read was whole. -/
theorem place_iff (houi : oui = randomMacEthPrefix ∨ oui = randomMacWifiPrefix)
    (hmac : ∀ i, i < 6 → mac i = orRandom (eepromMacAddr (received buf c r)) oui l i) :
    Own c r mac ∨ Random oui l mac ↔ ReadWhole buf c r := by
  have hplain := isMicrochip_randMac houi l
  rw [orRandom_eepromMacAddr] at hmac
  unfold ReadWhole
  cases hchip : isMicrochip (received buf c r) with
  | false =>
    rw [hchip] at hmac
    exact iff_of_true (Or.inr hmac) fun h => by cases h
  | true =>
    rw [hchip] at hmac
    constructor
    · rintro (hown | hrandom)
      · exact fun _ => ⟨hown.complete, fun i hi => (hmac i hi).symm.trans (hown.same i hi)⟩
      · have hsame := isMicrochip_congr fun i hi => (hmac i hi).symm.trans (hrandom i hi)
        exact absurd (hchip.symm.trans (hsame.trans hplain)) (by decide)
    · intro h
      obtain ⟨hread, hsame⟩ := h rfl
      exact Or.inl ⟨hread, fun i hi => (hmac i hi).trans (hsame i hi),
        (isMicrochip_congr hmac).trans hchip⟩

theorem update_lan (m mac1 mac2 : Mem) {i : ℕ} (hi : i < 6) :
    update m mac1 mac2 (mtdOffsetLanMac + i) = mac1 i := by
  unfold update
  split
  · rw [Mem.copy_outside _ _ (by unfold mtdOffsetLanMac mtdOffsetWifiMac; omega),
      Mem.copy_inside _ _ hi]
  · rw [Mem.copy_outside _ _ (by unfold mtdOffsetLanMac; omega),
      Mem.copy_outside _ _ (by unfold mtdOffsetLanMac mtdOffsetWifiMac; omega),
      Mem.copy_inside _ _ hi]

theorem update_wifi (m mac1 mac2 : Mem) {i : ℕ} (hi : i < 6) :
    update m mac1 mac2 (mtdOffsetWifiMac + i) = mac2 i := by
  unfold update
  split
  · rw [Mem.copy_inside _ _ hi]
  · rw [Mem.copy_outside _ _ (by unfold mtdOffsetWifiMac; omega), Mem.copy_inside _ _ hi]

theorem update_frame (m mac1 mac2 : Mem) {i : ℕ}
    (hwifi : ¬(mtdOffsetWifiMac ≤ i ∧ i < mtdOffsetWifiMac + 6))
    (hlan : ¬(mtdOffsetLanMac ≤ i ∧ i < mtdOffsetLanMac + 6))
    (hsign : ¬(hasSignature m = false ∧ i < 4)) : update m mac1 mac2 i = m i := by
  have hkeeps (j : ℕ) (hwifi : ¬(mtdOffsetWifiMac ≤ j ∧ j < mtdOffsetWifiMac + 6))
      (hlan : ¬(mtdOffsetLanMac ≤ j ∧ j < mtdOffsetLanMac + 6)) :
      ((m.copy mtdOffsetLanMac 6 mac1).copy mtdOffsetWifiMac 6 mac2) j = m j := by
    rw [Mem.copy_outside _ _ (by omega), Mem.copy_outside _ _ (by omega)]
  have hsame : hasSignature ((m.copy mtdOffsetLanMac 6 mac1).copy mtdOffsetWifiMac 6 mac2) =
      hasSignature m := by
    unfold hasSignature
    rw [hkeeps 0 (by decide) (by decide), hkeeps 1 (by decide) (by decide)]
  unfold update
  rw [hsame]
  cases hhas : hasSignature m with
  | true => exact hkeeps i hwifi hlan
  | false =>
    have hbehind : ¬i < 4 := fun hi => hsign ⟨hhas, hi⟩
    rw [if_neg (by simp), Mem.copy_outside _ _ (by omega)]
    exact hkeeps i hwifi hlan

theorem readChip_some {buf' : Mem} (h : readChip buf c r = some buf') : buf' = received buf c r := by
  unfold readChip at h
  split at h
  · cases h
  · split at h
    · cases h
    · split at h
      · cases h
      · exact (Option.some.inj h).symm

/-- What is written, when it is. -/
theorem go_some (h : go w = some out) : ∃ factory, w.mtdContent = some factory ∧
    out = update factory
      (orRandom (eepromMacAddr (received w.stack w.chip1 w.calls1)) randomMacEthPrefix w.rand)
      (orRandom (eepromMacAddr (received (received w.stack w.chip1 w.calls1) w.chip2 w.calls2))
        randomMacWifiPrefix w.rand) := by
  unfold go readEepromMacAddr at h
  split at h
  · cases h
  split at h
  · cases h
  split at h
  · cases h
  next mac1 mac2 hread =>
    split at hread
    · cases hread
    split at hread
    · cases hread
    next buf1 h1 =>
      split at hread
      · cases hread
      next buf2 h2 =>
        obtain ⟨rfl, rfl⟩ := Prod.mk.inj (Option.some.inj hread)
        obtain rfl := readChip_some h1
        obtain rfl := readChip_some h2
        split at h
        · cases h
        next factory hfactory => exact ⟨factory, hfactory, (Option.some.inj h).symm⟩

/-- Addresses that are right are different, when those of the chips are. -/
theorem distinct_of_right {mac1 mac2 : Mem} {c1 c2 : Chip} {r1 r2 : Calls}
    (h1 : Own c1 r1 mac1 ∨ Random randomMacEthPrefix l mac1)
    (h2 : Own c2 r2 mac2 ∨ Random randomMacWifiPrefix l mac2)
    (hchips : ∃ i, i < 6 ∧ c1.address i ≠ c2.address i) : ∃ i, i < 6 ∧ mac1 i ≠ mac2 i := by
  by_contra hno
  have hsame : ∀ i, i < 6 → mac1 i = mac2 i := fun i hi => by_contra fun hne => hno ⟨i, hi, hne⟩
  rcases h1 with hown1 | hrandom1 <;> rcases h2 with hown2 | hrandom2
  · obtain ⟨i, hi, hne⟩ := hchips
    exact hne ((hown1.same i hi).symm.trans ((hsame i hi).trans (hown2.same i hi)))
  · have hplain := isMicrochip_randMac (Or.inr rfl : randomMacWifiPrefix = _ ∨ _) l
    have hchip := isMicrochip_congr fun i hi => (hsame i hi).trans (hrandom2 i hi)
    exact absurd (hown1.microchip.symm.trans (hchip.trans hplain)) (by decide)
  · have hplain := isMicrochip_randMac (Or.inl rfl : randomMacEthPrefix = _ ∨ _) l
    have hchip := isMicrochip_congr fun i hi => (hsame i hi).symm.trans (hrandom1 i hi)
    exact absurd (hown2.microchip.symm.trans (hchip.trans hplain)) (by decide)
  · have hfirst := (hrandom1 0 (by omega)).symm.trans
      ((hsame 0 (by omega)).trans (hrandom2 0 (by omega)))
    rw [(randMac_oui _ l).1, (randMac_oui _ l).1] at hfirst
    exact absurd hfirst (by decide)

end

/-- The output is a right one exactly when each chip's address was read as a whole, or the
buffer began with none of the OUIs behind its read. -/
theorem go_provisioned_iff {w : World} {factory out : Mem} (hmtd : w.mtdContent = some factory)
    (h : go w = some out) : Provisioned w factory out ↔
      ReadWhole w.stack w.chip1 w.calls1 ∧
        ReadWhole (received w.stack w.chip1 w.calls1) w.chip2 w.calls2 := by
  obtain ⟨factory', hfactory, rfl⟩ := go_some h
  obtain rfl := Option.some.inj (hmtd.symm.trans hfactory)
  generalize hmac1 : orRandom (eepromMacAddr (received w.stack w.chip1 w.calls1)) randomMacEthPrefix
    w.rand = mac1
  generalize hmac2 : orRandom (eepromMacAddr (received (received w.stack w.chip1 w.calls1) w.chip2
    w.calls2)) randomMacWifiPrefix w.rand = mac2
  have hlan := place_iff (Or.inl rfl) fun i hi =>
    (update_lan factory mac1 mac2 hi).trans (congrFun hmac1 i).symm
  have hwifi := place_iff (Or.inr rfl) fun i hi =>
    (update_wifi factory mac1 mac2 hi).trans (congrFun hmac2 i).symm
  constructor
  · intro hright
    exact ⟨hlan.mp hright.lan, hwifi.mp hright.wifi⟩
  · intro ⟨h1, h2⟩
    exact ⟨fun i => update_frame factory mac1 mac2, hlan.mpr h1, hwifi.mpr h2,
      distinct_of_right (hlan.mpr h1) (hwifi.mpr h2)⟩

/-- A chip with an address behind the OUI 00:1E:C0. -/
def chipOf (last : Byte) : Chip where
  cells i := (List.lookup i [(0xfb, 0x1e), (0xfc, 0xc0), (0xff, last)]).getD 0
  counter := 0

/-- Two chips, and how many bytes the second one sends. -/
def twoChips (n : Fin 7) : World where
  paramOk := true
  showVersion := false
  port := true
  stack _ := 0
  chip1 := chipOf 1
  calls1 := ⟨true, some true, some 6⟩
  chip2 := chipOf 2
  calls2 := ⟨true, some true, some n⟩
  mtdContent := some fun _ => 0xff
  rand := 0

def written (n : Fin 7) : Mem := (go (twoChips n)).getD fun _ => 0

theorem go_provisioned_twoChips :
    Provisioned (twoChips 6) (fun _ => 0xff) (written 6) ↔
      ReadWhole (twoChips 6).stack (chipOf 1) (twoChips 6).calls1 ∧
        ReadWhole (received (twoChips 6).stack (chipOf 1) (twoChips 6).calls1) (chipOf 2)
          (twoChips 6).calls2 :=
  go_provisioned_iff rfl rfl

/-- When the second chip sends nothing, both places get the address of the first. -/
theorem nothing_sent : go (twoChips 0) = some (written 0) ∧
    (∀ i, i < 6 → written 0 (mtdOffsetLanMac + i) = written 0 (mtdOffsetWifiMac + i)) ∧
      ¬Provisioned (twoChips 0) (fun _ => 0xff) (written 0) := by
  have hsame : ∀ i, i < 6 → written 0 (mtdOffsetLanMac + i) = written 0 (mtdOffsetWifiMac + i) := by
    decide
  refine ⟨rfl, hsame, fun h => ?_⟩
  obtain ⟨i, hi, hne⟩ := h.distinct ⟨5, by decide, by decide⟩
  exact hne (hsame i hi)

end Iot7688.GenMacAddr
