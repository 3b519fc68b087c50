import Iot7688.Lib.Attempts
import Iot7688.Lib.ByteOrder
import Iot7688.Lib.Fields
import Iot7688.Lib.Scan
import Iot7688.UimageSplit

/-!
The splitters for a squashfs with a partition for its overlay behind it and for TRX images,
on kernels of either byte order and width of size_t. Device sizes and offsets have 64 bits.
Allocations are taken to succeed, and mtd_div_by_eb to return the whole quotient. What a TRX
header says is in little-endian order, but its offsets are used as they are loaded.
-/
namespace Iot7688.Mtdsplit

open Lib UimageSplit

inductive SizeT
  | bits32
  | bits64

/-- The number of values. -/
def SizeT.limit : SizeT → ℕ
  | .bits32 => 2 ^ 32
  | .bits64 => 2 ^ 64

def SizeT.of (w : SizeT) (n : ℕ) : ℕ := n % w.limit

def u64 (n : ℕ) : ℕ := n % 2 ^ 64

/-- A difference of two 64-bit numbers. -/
def sub64 (a b : ℕ) : ℕ := u64 (a + (2 ^ 64 - b))

/-- A partition, and the flash that it is a part of. -/
structure Slave where
  mtd : Mtd
  offset : ℕ
  parentSize : ℕ
  parentErasesize : ℕ
  erasesize_pos : 0 < parentErasesize
  erasesize_lt : parentErasesize < 2 ^ 32
  inside : offset + mtd.size ≤ parentSize
  parentSize_lt : parentSize < 2 ^ 64

/-- A little-endian number of n bytes. -/
def leAt (m : Mem) (off n : ℕ) : ℕ := leValue (slice m off (off + n))

/-- sizeof(struct squashfs_super_block), and its fields. -/
def superBlockLen : ℕ := 48

def sMagic (sb : Mem) : ℕ := leAt sb 0 4
def bytesUsed (sb : Mem) : ℕ := leAt sb 40 8

def squashfsMagic : ℕ := 0x73717368

def mtdGetSquashfsLen (w : SizeT) (m : Mtd) (offset : ℕ) : Except ℤ ℕ :=
  match mtdRead m offset superBlockLen with
  | .error _ => .error eio
  | .ok sb =>
      if sMagic sb ≠ squashfsMagic then .error einval
      else
        let retlen := w.of (bytesUsed sb)
        if retlen = 0 then .error enodev
        else if m.size < w.of (offset + retlen) then .error einval
        else .ok retlen

def mtdRoundupToEb (sz erasesize : ℕ) : ℕ :=
  if sz % erasesize = 0 then sz else u64 ((sz / erasesize + 1) * erasesize)

/-- mtdsplit_parse_squashfs: the partition for rootfs_data. -/
def mtdsplitParseSquashfs (w : SizeT) (f : Slave) : Except ℤ Partition :=
  match mtdGetSquashfsLen w f.mtd 0 with
  | .error e => .error e
  | .ok squashfsLen =>
      let partOffset := w.of f.offset
      let offset := sub64 (mtdRoundupToEb (w.of (partOffset + squashfsLen)) f.parentErasesize)
        partOffset
      .ok ⟨offset, sub64 f.mtd.size offset⟩

/-- What the overlay needs: a start at an erase block of the flash behind the image, and
an end inside of the partition. -/
structure Overlay (f : Slave) (p : Partition) : Prop where
  aligned : f.parentErasesize ∣ f.offset + p.offset
  behind : bytesUsed f.mtd.content ≤ p.offset
  inside : p.offset + p.size ≤ f.mtd.size

def Sound (w : SizeT) (f : Slave) : Prop :=
  (∀ p, mtdsplitParseSquashfs w f = .ok p → Overlay f p) ∧
    (f.mtd.size < bytesUsed f.mtd.content → ∃ e, mtdsplitParseSquashfs w f = .error e)

/-- The superblock is read, and its length, as size_t shows it, is one of the partition. -/
structure Accepted (w : SizeT) (f : Slave) : Prop where
  room : superBlockLen ≤ f.mtd.size
  read : f.mtd.readError 0 superBlockLen = 0
  magic : sMagic f.mtd.content = squashfsMagic
  nonempty : w.of (bytesUsed f.mtd.content) ≠ 0
  fits : w.of (bytesUsed f.mtd.content) ≤ f.mtd.size

/-- The end of an erase block. -/
def blockEnd (n erasesize : ℕ) : ℕ := (n + erasesize - 1) / erasesize * erasesize

/-- The end of the image in the flash can be counted, the part of the offset that size_t
loses is one of whole erase blocks, and the partition reaches to the end of the block in
which the image ends. -/
structure Reaches (w : SizeT) (f : Slave) : Prop where
  counted : w.of f.offset + bytesUsed f.mtd.content < w.limit
  lost : f.parentErasesize ∣ f.offset - w.of f.offset
  room : blockEnd (w.of f.offset + bytesUsed f.mtd.content) f.parentErasesize ≤
    w.of f.offset + f.mtd.size

section

variable {w : SizeT} {f : Slave} {n e : ℕ}

theorem limit_cases (w : SizeT) : w.limit = 2 ^ 32 ∨ w.limit = 2 ^ 64 := by
  cases w with
  | bits32 => exact Or.inl rfl
  | bits64 => exact Or.inr rfl

theorem of_lt (w : SizeT) (n : ℕ) : w.of n < w.limit := by
  apply Nat.mod_lt
  cases w <;> decide

theorem of_le (w : SizeT) (n : ℕ) : w.of n ≤ n := Nat.mod_le _ _

theorem of_eq (h : n < w.limit) : w.of n = n := Nat.mod_eq_of_lt h

/-- How many values a conversion loses. -/
theorem of_add (w : SizeT) (n : ℕ) : ∃ k, n = w.of n + w.limit * k := ⟨_, (Nat.mod_add_div n _).symm⟩

theorem blockEnd_spec (n : ℕ) (he : 0 < e) :
    e ∣ blockEnd n e ∧ n ≤ blockEnd n e ∧ blockEnd n e < n + e := by
  have hdiv := Nat.div_add_mod (n + e - 1) e
  have hmod := Nat.mod_lt (n + e - 1) he
  unfold blockEnd
  rw [Nat.mul_comm] at hdiv
  exact ⟨Nat.dvd_mul_left _ _, by omega, by omega⟩

theorem blockEnd_of_dvd (he : 0 < e) (h : n % e = 0) : blockEnd n e = n := by
  obtain ⟨⟨k, hk⟩, hle, hlt⟩ := blockEnd_spec n he
  obtain ⟨j, hj⟩ := Nat.dvd_of_mod_eq_zero h
  rw [hk, hj] at hle hlt ⊢
  have hjk := Nat.le_of_mul_le_mul_left hle he
  rw [← Nat.mul_succ] at hlt
  have hkj := Nat.lt_of_mul_lt_mul_left hlt
  rw [show j = k by omega]

theorem blockEnd_of_not_dvd (he : 0 < e) (h : n % e ≠ 0) : blockEnd n e = (n / e + 1) * e := by
  have hdiv := Nat.div_add_mod n e
  have hmod := Nat.mod_lt n he
  have hsum : n + e - 1 = e * (n / e + 1) + (n % e - 1) := by
    rw [Nat.mul_add, Nat.mul_one]
    omega
  have hrest : n % e - 1 < e := by omega
  rw [blockEnd, hsum, Nat.mul_add_div he, Nat.div_eq_of_lt hrest]

/-- mtd_roundup_to_eb rounds up, in 64 bits. -/
theorem roundup_eq (hn : n < 2 ^ 64) (he : 0 < e) : mtdRoundupToEb n e = u64 (blockEnd n e) := by
  unfold mtdRoundupToEb
  by_cases h : n % e = 0
  · rw [if_pos h, blockEnd_of_dvd he h, u64, Nat.mod_eq_of_lt hn]
  · rw [if_neg h, blockEnd_of_not_dvd he h]

theorem getSquashfsLen_iff {len : ℕ} : mtdGetSquashfsLen w f.mtd 0 = .ok len ↔
    Accepted w f ∧ len = w.of (bytesUsed f.mtd.content) := by
  have hshift : f.mtd.content.shift 0 = f.mtd.content := by
    funext x
    rw [Mem.shift_apply, Nat.zero_add]
  unfold mtdGetSquashfsLen mtdRead
  rw [Nat.zero_add, hshift]
  by_cases hroom : f.mtd.size < superBlockLen
  · rw [if_pos hroom]
    exact iff_of_false (by simp) fun h => absurd h.1.room (by omega)
  by_cases hread : f.mtd.readError 0 superBlockLen = 0
  swap
  · rw [if_neg hroom, if_pos hread]
    exact iff_of_false (by simp) fun h => hread h.1.read
  rw [if_neg hroom, if_neg (not_not.mpr hread)]
  dsimp only
  by_cases hmagic : sMagic f.mtd.content = squashfsMagic
  swap
  · rw [if_pos hmagic]
    exact iff_of_false (by simp) fun h => hmagic h.1.magic
  rw [if_neg (not_not.mpr hmagic), Nat.zero_add, of_eq (of_lt w _)]
  by_cases hempty : w.of (bytesUsed f.mtd.content) = 0
  · rw [if_pos hempty]
    exact iff_of_false (by simp) fun h => h.1.nonempty hempty
  by_cases hfits : f.mtd.size < w.of (bytesUsed f.mtd.content)
  · rw [if_neg hempty, if_pos hfits]
    exact iff_of_false (by simp) fun h => absurd h.1.fits (by omega)
  rw [if_neg hempty, if_neg hfits]
  constructor
  · intro h
    exact ⟨⟨by omega, hread, hmagic, hempty, by omega⟩, (Except.ok.inj h).symm⟩
  · rintro ⟨-, rfl⟩
    rfl

/-- The partition for an accepted superblock. -/
theorem parse_iff {p : Partition} : mtdsplitParseSquashfs w f = .ok p ↔ Accepted w f ∧
    p.offset = sub64 (u64 (blockEnd (w.of (w.of f.offset + w.of (bytesUsed f.mtd.content)))
      f.parentErasesize)) (w.of f.offset) ∧ p.size = sub64 f.mtd.size p.offset := by
  have hsum : w.of (w.of f.offset + w.of (bytesUsed f.mtd.content)) < 2 ^ 64 := by
    have := of_lt w (w.of f.offset + w.of (bytesUsed f.mtd.content))
    have := limit_cases w
    omega
  unfold mtdsplitParseSquashfs
  rw [← roundup_eq hsum f.erasesize_pos]
  cases hlen : mtdGetSquashfsLen w f.mtd 0 with
  | error e =>
    refine iff_of_false (by simp) fun h => ?_
    rw [getSquashfsLen_iff.mpr ⟨h.1, rfl⟩] at hlen
    cases hlen
  | ok len =>
    obtain ⟨haccepted, rfl⟩ := getSquashfsLen_iff.mp hlen
    dsimp only
    constructor
    · intro h
      obtain rfl := Except.ok.inj h
      exact ⟨haccepted, rfl, rfl⟩
    · rintro ⟨-, hoffset, hsize⟩
      rw [← hoffset, ← hsize]

theorem overlay_of_reaches (h : Reaches w f) {p : Partition}
    (hparse : mtdsplitParseSquashfs w f = .ok p) : Overlay f p := by
  obtain ⟨-, hoffset, hsize⟩ := parse_iff.mp hparse
  obtain ⟨hcounted, hlost, hroom⟩ := h
  have hle := of_le w f.offset
  have hlimit := limit_cases w
  have hinside := f.inside
  have hparent := f.parentSize_lt
  rw [of_eq (n := bytesUsed _) (by omega), of_eq hcounted] at hoffset
  obtain ⟨hdvd, hbehind, -⟩ :=
    blockEnd_spec (w.of f.offset + bytesUsed f.mtd.content) f.erasesize_pos
  generalize blockEnd (w.of f.offset + bytesUsed f.mtd.content) f.parentErasesize = last at *
  have hstart : p.offset = last - w.of f.offset := by
    unfold sub64 u64 at hoffset
    omega
  refine ⟨?_, by omega, ?_⟩
  · have hplace : f.offset + p.offset = (f.offset - w.of f.offset) + last := by omega
    rw [hplace]
    exact Nat.dvd_add hlost hdvd
  · unfold sub64 u64 at hsize
    omega

/-- An overlay that ends inside of the partition shows that no sum has gone around. -/
theorem reaches_of_overlay {p : Partition} (hparse : mtdsplitParseSquashfs w f = .ok p)
    (h : Overlay f p) : Reaches w f := by
  obtain ⟨-, hoffset, hsize⟩ := parse_iff.mp hparse
  obtain ⟨haligned, hbehind, hinside⟩ := h
  have hle := of_le w f.offset
  have hlt := of_lt w f.offset
  have hlimit := limit_cases w
  have hslave := f.inside
  have hparent := f.parentSize_lt
  have herase := f.erasesize_lt
  obtain ⟨k, hk⟩ := of_add w (bytesUsed f.mtd.content)
  obtain ⟨j, hj⟩ := of_add w (w.of f.offset + w.of (bytesUsed f.mtd.content))
  obtain ⟨hdvd, hfrom, hto⟩ :=
    blockEnd_spec (w.of (w.of f.offset + w.of (bytesUsed f.mtd.content))) f.erasesize_pos
  have hend : p.offset ≤ f.mtd.size := by
    unfold sub64 u64 at hsize hoffset
    omega
  have hstart : w.of f.offset + p.offset =
      u64 (blockEnd (w.of (w.of f.offset + w.of (bytesUsed f.mtd.content))) f.parentErasesize) := by
    unfold sub64 u64 at hoffset
    unfold u64
    omega
  -- a block is shorter than what is lost in one turn of a sum
  obtain ⟨hcounted, hsum⟩ : w.of f.offset + bytesUsed f.mtd.content < w.limit ∧
      w.of (w.of f.offset + w.of (bytesUsed f.mtd.content)) =
        w.of f.offset + bytesUsed f.mtd.content := by
    have hcount := of_lt w (w.of f.offset + w.of (bytesUsed f.mtd.content))
    unfold u64 at hstart
    rcases hlimit with hlimit | hlimit <;> rw [hlimit] at hk hj hlt hcount ⊢ <;> omega
  rw [hsum] at hstart hdvd hfrom hto
  have hlast : w.of f.offset + p.offset =
      blockEnd (w.of f.offset + bytesUsed f.mtd.content) f.parentErasesize := by
    unfold u64 at hstart
    omega
  refine ⟨hcounted, ?_, by omega⟩
  have hplace : f.offset + p.offset = (f.offset - w.of f.offset) + (w.of f.offset + p.offset) := by
    omega
  rw [hplace, hlast] at haligned
  exact (Nat.dvd_add_left hdvd).mp haligned

end

/-- When the overlay can be trusted. -/
theorem mtdsplitParseSquashfs_sound_iff (w : SizeT) (f : Slave) :
    Sound w f ↔ (Accepted w f → Reaches w f) := by
  constructor
  · intro h haccepted
    cases hparse : mtdsplitParseSquashfs w f with
    | error e =>
      rw [mtdsplitParseSquashfs, getSquashfsLen_iff.mpr ⟨haccepted, rfl⟩] at hparse
      cases hparse
    | ok p => exact reaches_of_overlay hparse (h.1 p hparse)
  · intro h
    refine ⟨fun p hparse => overlay_of_reaches (h (parse_iff.mp hparse).1) hparse, fun hlong => ?_⟩
    cases hparse : mtdsplitParseSquashfs w f with
    | error e => exact ⟨e, rfl⟩
    | ok p =>
      have hoverlay := overlay_of_reaches (h (parse_iff.mp hparse).1) hparse
      have hbehind := hoverlay.behind
      have hinside := hoverlay.inside
      omega

/-- A squashfs of 28 KiB in a partition of 32 KiB, on a flash with blocks of 64 KiB. -/
def halfBlock : Slave where
  mtd :=
    { size := 0x8000
      erasesize := 0x10000
      erasesize_pos := block_pos
      content x := (List.lookup x [(0, 0x68), (1, 0x73), (2, 0x71), (3, 0x73), (41, 0x70)]).getD 0
      readError _ _ := 0 }
  offset := 0x50000
  parentSize := 0x800000
  parentErasesize := 0x10000
  erasesize_pos := block_pos
  erasesize_lt := by decide
  inside := by decide
  parentSize_lt := by decide

/-- The overlay starts behind the partition, and its size goes around. -/
theorem halfBlock_overlay :
    mtdsplitParseSquashfs .bits32 halfBlock = .ok ⟨0x10000, 2 ^ 64 - 0x8000⟩ ∧
      ¬Sound .bits32 halfBlock := by
  have hparse : mtdsplitParseSquashfs .bits32 halfBlock = .ok ⟨0x10000, 2 ^ 64 - 0x8000⟩ := by
    decide +kernel
  refine ⟨hparse, fun h => ?_⟩
  have hinside := (h.1 _ hparse).inside
  exact absurd hinside (by decide)

def le32ToCpu : Host → BitVec 32 → BitVec 32
  | .little, x => x
  | .big, x => swap x

def cpuToLe32 (h : Host) (x : BitVec 32) : BitVec 32 := le32ToCpu h x

def trxMagic : BitVec 32 := 0x30524448

/-- sizeof(struct trx_header), and its fields. -/
def trxHeaderLen : ℕ := 32

def hdrMagic (h : Host) (hdr : Mem) : BitVec 32 := loadWord h hdr
def hdrLen (h : Host) (hdr : Mem) : BitVec 32 := loadWord h (hdr.shift 4)
def hdrOffset (h : Host) (hdr : Mem) (i : ℕ) : BitVec 32 := loadWord h (hdr.shift (16 + 4 * i))

/-- read_trx_header, and the test of the magic. -/
def trxHeaderAt (h : Host) (m : Mtd) (offset : ℕ) : Option Mem :=
  match mtdRead m offset trxHeaderLen with
  | .error _ => none
  | .ok hdr => if hdrMagic h hdr ≠ cpuToLe32 h trxMagic then none else some hdr

/-- The offset of the loop, and the header of the last pass. With none, trx_size is 0, and
hdr is not looked at behind the loop. -/
structure TrxLoop where
  offset : ℕ
  hdr : Option Mem

def trxSize (h : Host) : Option Mem → ℕ
  | none => 0
  | some hdr => (le32ToCpu h (hdrLen h hdr)).toNat

section

variable (w : SizeT) (h : Host) (m : Mtd)

/-- A pass of the loop, with a result when the loop ends. -/
def trxPass (s : TrxLoop) : Option Unit × TrxLoop :=
  if m.size ≤ s.offset then (some (), s)
  else
    let hdr := trxHeaderAt h m s.offset
    let next := w.of (s.offset + m.erasesize)
    if hdr.isNone then (none, ⟨next, none⟩)
    else if m.size < w.of (s.offset + trxSize h hdr) then (none, ⟨next, hdr⟩)
    else (some (), ⟨s.offset, hdr⟩)

/-- What follows the loop. -/
def trxParts (s : TrxLoop) : Except ℤ (Partition × Partition) :=
  match s.hdr with
  | none => .error enodev
  | some hdr =>
      if trxSize h s.hdr = 0 then .error enodev
      else
        let trxOffset := w.of (s.offset + (hdrOffset h hdr 0).toNat)
        let rootfsOffset := w.of (s.offset + (hdrOffset h hdr 1).toNat)
        let rootfsSize := w.of (m.size + (w.limit - rootfsOffset))
        let size := w.of (rootfsOffset + (w.limit - trxOffset))
        if rootfsSize = 0 then .error enodev
        else .ok (⟨trxOffset, size⟩, ⟨rootfsOffset, rootfsSize⟩)

/-- mtdsplit_parse_trx: where the loop ends, and the result. -/
def mtdsplitParseTrx (passes : ℕ) : Option (TrxLoop × Except ℤ (Partition × Partition)) :=
  match attempts (trxPass w h m) passes ⟨0, none⟩ with
  | (none, _) => none
  | (some (), s) => some (s, trxParts w h m s)

/-- The image at an offset, and the two partitions. -/
structure TrxSplit (offset : ℕ) (kernel rootfs : Partition) : Prop where
  aligned : m.erasesize ∣ offset
  below : offset < m.size
  image : ∃ hdr, trxHeaderAt h m offset = some hdr ∧ offset + trxSize h (some hdr) ≤ m.size
  ordered : kernel.offset < rootfs.offset
  kernel_inside : kernel.offset + kernel.size ≤ m.size
  rootfs_inside : rootfs.offset + rootfs.size ≤ m.size
  kernel_pos : 0 < kernel.size
  rootfs_pos : 0 < rootfs.size
  disjoint : kernel.offset + kernel.size ≤ rootfs.offset ∨
    rootfs.offset + rootfs.size ≤ kernel.offset

/-- The header of the last pass does not fit: the loop has gone on behind it, or its image
exceeds the device. -/
def Unfit (s : TrxLoop) : Prop :=
  ∃ hdr, s.hdr = some hdr ∧ (m.size ≤ s.offset ∨ m.size < s.offset + trxSize h s.hdr)

/-- Two partitions that are returned are a good split, and there is an error when the last
header does not fit. -/
def TrxSound : Prop :=
  ∀ passes s r, mtdsplitParseTrx w h m passes = some (s, r) →
    (∀ kernel rootfs, r = .ok (kernel, rootfs) → TrxSplit h m s.offset kernel rootfs) ∧
      (Unfit h m s → ∃ e, r = .error e)

/-- The offset of a pass. -/
def trxVisit (i : ℕ) : ℕ := w.of (i * m.erasesize)

/-- The end of the image, as size_t shows it, lies in the device. -/
def TrxTaken (offset : ℕ) : Prop :=
  ∃ hdr, trxHeaderAt h m offset = some hdr ∧ w.of (offset + trxSize h (some hdr)) ≤ m.size

/-- The loop ends at this pass. -/
structure TrxStopsAt (i : ℕ) : Prop where
  stop : m.size ≤ trxVisit w m i ∨ TrxTaken w h m (trxVisit w m i)
  first : ∀ j, j < i → trxVisit w m j < m.size ∧ ¬TrxTaken w h m (trxVisit w m j)

/-- Where a header that is not empty makes two partitions. -/
def MakesParts (offset : ℕ) (hdr : Mem) : Prop :=
  trxSize h (some hdr) ≠ 0 ∧ w.of m.size ≠ w.of (offset + (hdrOffset h hdr 1).toNat)

/-- The conditions on the pass at which the loop ends. -/
structure TrxSplitsWell : Prop where
  /-- The header of a block that is taken has its image in the device, and its offsets, as
  size_t shows them, are in order and in the device. -/
  taken : ∀ n hdr, TrxStopsAt w h m n → trxVisit w m n < m.size →
    trxHeaderAt h m (trxVisit w m n) = some hdr → MakesParts w h m (trxVisit w m n) hdr →
      m.erasesize ∣ trxVisit w m n ∧ trxVisit w m n + trxSize h (some hdr) ≤ m.size ∧
        w.of (trxVisit w m n + (hdrOffset h hdr 0).toNat) <
          w.of (trxVisit w m n + (hdrOffset h hdr 1).toNat) ∧
        w.of (trxVisit w m n + (hdrOffset h hdr 1).toNat) < m.size
  /-- With no block taken, the last one has no header that makes partitions. -/
  beyond : ∀ n hdr, TrxStopsAt w h m (n + 1) → m.size ≤ trxVisit w m (n + 1) →
    trxHeaderAt h m (trxVisit w m n) = some hdr → ¬MakesParts w h m (trxVisit w m (n + 1)) hdr

/-- The header that the pass before has left. -/
def trxLast : ℕ → Option Mem
  | 0 => none
  | i + 1 => trxHeaderAt h m (trxVisit w m i)

/-- What the loop leaves when it ends at a pass. -/
def trxEnd (i : ℕ) : TrxLoop :=
  ⟨trxVisit w m i, if m.size ≤ trxVisit w m i then trxLast w h m i
    else trxHeaderAt h m (trxVisit w m i)⟩

end

section

variable {w : SizeT} {h : Host} {m : Mtd} {i offset : ℕ} {hdr : Mem}

theorem trxVisit_succ (w : SizeT) (m : Mtd) (i : ℕ) :
    w.of (trxVisit w m i + m.erasesize) = trxVisit w m (i + 1) := by
  unfold trxVisit SizeT.of
  rw [Nat.mod_add_mod, Nat.succ_mul]

theorem trxPass_stop (hstop : m.size ≤ trxVisit w m i ∨ TrxTaken w h m (trxVisit w m i)) :
    trxPass w h m ⟨trxVisit w m i, trxLast w h m i⟩ = (some (), trxEnd w h m i) := by
  unfold trxPass trxEnd
  dsimp only
  by_cases hend : m.size ≤ trxVisit w m i
  · rw [if_pos hend, if_pos hend]
  · obtain ⟨hdr, hheader, hfits⟩ := hstop.resolve_left hend
    rw [if_neg hend, if_neg hend, hheader, if_neg (by simp), if_neg (by omega)]

theorem trxPass_next (hend : trxVisit w m i < m.size) (hno : ¬TrxTaken w h m (trxVisit w m i)) :
    trxPass w h m ⟨trxVisit w m i, trxLast w h m i⟩ =
      (none, ⟨trxVisit w m (i + 1), trxLast w h m (i + 1)⟩) := by
  unfold trxPass
  dsimp only
  rw [if_neg (by omega), trxVisit_succ, trxLast]
  cases hheader : trxHeaderAt h m (trxVisit w m i) with
  | none => rfl
  | some hdr =>
    have hlong : m.size < w.of (trxVisit w m i + trxSize h (some hdr)) := by
      by_contra hfits
      exact hno ⟨hdr, hheader, not_lt.mp hfits⟩
    rw [if_neg (by simp), if_pos hlong]

/-- A result is that of the pass at which the loop ends. -/
theorem parseTrx_iff {s : TrxLoop} {r : Except ℤ (Partition × Partition)} :
    (∃ passes, mtdsplitParseTrx w h m passes = some (s, r)) ↔
      ∃ n, TrxStopsAt w h m n ∧ s = trxEnd w h m n ∧ r = trxParts w h m (trxEnd w h m n) := by
  have hstart : (⟨0, none⟩ : TrxLoop) = ⟨trxVisit w m 0, trxLast w h m 0⟩ := by
    unfold trxVisit SizeT.of
    rw [Nat.zero_mul, Nat.zero_mod]
    rfl
  have hnone {i : ℕ} : (trxPass w h m ⟨trxVisit w m i, trxLast w h m i⟩).1 = none ↔
      trxVisit w m i < m.size ∧ ¬TrxTaken w h m (trxVisit w m i) := by
    by_cases hstop : m.size ≤ trxVisit w m i ∨ TrxTaken w h m (trxVisit w m i)
    · rw [trxPass_stop hstop]
      refine iff_of_false (by simp) fun hgo => ?_
      exact (not_or.mpr ⟨not_le.mpr hgo.1, hgo.2⟩) hstop
    · rw [not_or, not_le] at hstop
      rw [trxPass_next hstop.1 hstop.2]
      exact iff_of_true rfl hstop
  have hloop {t : TrxLoop} : (∃ passes, attempts (trxPass w h m) passes ⟨0, none⟩ = (some (), t)) ↔
      ∃ n, TrxStopsAt w h m n ∧ t = trxEnd w h m n := by
    have hiff := attempts_iff (trxPass w h m) (fun i => ⟨trxVisit w m i, trxLast w h m i⟩) () t
      fun i hi => by rw [trxPass_next (hnone.mp hi).1 (hnone.mp hi).2]
    rw [hstart]
    refine hiff.trans (exists_congr fun n => ?_)
    constructor
    · intro ⟨hdone, hfirst⟩
      have hstop : m.size ≤ trxVisit w m n ∨ TrxTaken w h m (trxVisit w m n) := by
        by_contra hgo
        rw [not_or, not_le] at hgo
        rw [trxPass_next hgo.1 hgo.2] at hdone
        cases hdone
      rw [trxPass_stop hstop] at hdone
      exact ⟨⟨hstop, fun j hj => hnone.mp (hfirst j hj)⟩, (Prod.mk.inj hdone).2.symm⟩
    · intro ⟨hstop, ht⟩
      rw [ht, trxPass_stop hstop.stop]
      exact ⟨rfl, fun j hj => hnone.mpr (hstop.first j hj)⟩
  constructor
  · intro ⟨passes, hparse⟩
    unfold mtdsplitParseTrx at hparse
    split at hparse
    · cases hparse
    next t hrun =>
      obtain ⟨rfl, rfl⟩ := Prod.mk.inj (Option.some.inj hparse)
      obtain ⟨n, hstop, rfl⟩ := hloop.mp ⟨passes, hrun⟩
      exact ⟨n, hstop, rfl, rfl⟩
  · rintro ⟨n, hstop, rfl, rfl⟩
    obtain ⟨passes, hrun⟩ := hloop.mpr ⟨n, hstop, rfl⟩
    refine ⟨passes, ?_⟩
    rw [mtdsplitParseTrx, hrun]

/-- A difference is 0 when the numbers are equal as size_t. -/
theorem of_sub_eq_zero {n b : ℕ} (hb : b < w.limit) : w.of (n + (w.limit - b)) = 0 ↔ w.of n = b := by
  unfold SizeT.of
  rcases limit_cases w with hlimit | hlimit <;> rw [hlimit] at hb ⊢ <;> omega

theorem of_sub {n b : ℕ} (hn : n < w.limit) (hb : b ≤ n) : w.of (n + (w.limit - b)) = n - b := by
  have hplace : n + (w.limit - b) = n - b + w.limit := by omega
  rw [hplace, SizeT.of, Nat.add_mod_right]
  exact Nat.mod_eq_of_lt (by omega)

/-- What is left behind a place ends inside exactly when the place is inside. -/
theorem add_of_sub_le_iff {n b : ℕ} (hb : b < w.limit) (hne : w.of n ≠ b) :
    b + w.of (n + (w.limit - b)) ≤ n ↔ b < n := by
  unfold SizeT.of at *
  rcases limit_cases w with hlimit | hlimit <;> rw [hlimit] at hb hne ⊢ <;> omega

variable (w h m offset hdr)

def trxKernel : Partition :=
  let trxOffset := w.of (offset + (hdrOffset h hdr 0).toNat)
  ⟨trxOffset, w.of (w.of (offset + (hdrOffset h hdr 1).toNat) + (w.limit - trxOffset))⟩

def trxRootfs : Partition :=
  let rootfsOffset := w.of (offset + (hdrOffset h hdr 1).toNat)
  ⟨rootfsOffset, w.of (m.size + (w.limit - rootfsOffset))⟩

variable {w h m offset hdr}

theorem trxParts_iff {kernel rootfs : Partition} :
    trxParts w h m ⟨offset, some hdr⟩ = .ok (kernel, rootfs) ↔ MakesParts w h m offset hdr ∧
      kernel = trxKernel w h offset hdr ∧ rootfs = trxRootfs w h m offset hdr := by
  have hzero := of_sub_eq_zero (n := m.size) (of_lt w (offset + (hdrOffset h hdr 1).toNat))
  unfold trxParts MakesParts
  dsimp only
  by_cases hempty : trxSize h (some hdr) = 0
  · rw [if_pos hempty]
    exact iff_of_false (by simp) fun hall => hall.1.1 hempty
  by_cases hrootfs : w.of m.size = w.of (offset + (hdrOffset h hdr 1).toNat)
  · rw [if_neg hempty, if_pos (hzero.mpr hrootfs)]
    exact iff_of_false (by simp) fun hall => hall.1.2 hrootfs
  rw [if_neg hempty, if_neg (fun heq => hrootfs (hzero.mp heq))]
  constructor
  · intro heq
    obtain ⟨rfl, rfl⟩ := Prod.mk.inj (Except.ok.inj heq)
    exact ⟨⟨hempty, hrootfs⟩, rfl, rfl⟩
  · rintro ⟨-, rfl, rfl⟩
    rfl

/-- The two sizes are right exactly when the two offsets are in order and in the device. -/
theorem trxSplit_iff (hparts : MakesParts w h m offset hdr) :
    TrxSplit h m offset (trxKernel w h offset hdr) (trxRootfs w h m offset hdr) ↔
      (m.erasesize ∣ offset ∧ offset < m.size ∧
        ∃ hdr', trxHeaderAt h m offset = some hdr' ∧ offset + trxSize h (some hdr') ≤ m.size) ∧
      w.of (offset + (hdrOffset h hdr 0).toNat) < w.of (offset + (hdrOffset h hdr 1).toNat) ∧
        w.of (offset + (hdrOffset h hdr 1).toNat) < m.size := by
  have hlt := of_lt w (offset + (hdrOffset h hdr 1).toNat)
  have hinside := add_of_sub_le_iff hlt hparts.2
  constructor
  · intro hsplit
    exact ⟨⟨hsplit.aligned, hsplit.below, hsplit.image⟩, hsplit.ordered,
      hinside.mp hsplit.rootfs_inside⟩
  · intro ⟨⟨haligned, hbelow, himage⟩, hordered, hin⟩
    have hkernel : (trxKernel w h offset hdr).size = (trxRootfs w h m offset hdr).offset -
        (trxKernel w h offset hdr).offset := of_sub hlt hordered.le
    have hrootfs : (trxRootfs w h m offset hdr).size ≠ 0 := fun hzero =>
      hparts.2 ((of_sub_eq_zero hlt).mp hzero)
    have hstart : (trxKernel w h offset hdr).offset < (trxRootfs w h m offset hdr).offset := hordered
    have hend : (trxRootfs w h m offset hdr).offset < m.size := hin
    exact ⟨haligned, hbelow, himage, hordered, by omega, hinside.mpr hin, by omega,
      Nat.pos_of_ne_zero hrootfs, Or.inl (by omega)⟩

theorem trxEnd_of_lt (hin : trxVisit w m i < m.size) :
    trxEnd w h m i = ⟨trxVisit w m i, trxHeaderAt h m (trxVisit w m i)⟩ := by
  rw [trxEnd, if_neg (by omega)]

theorem trxEnd_of_le (hend : m.size ≤ trxVisit w m i) :
    trxEnd w h m i = ⟨trxVisit w m i, trxLast w h m i⟩ := by
  rw [trxEnd, if_pos hend]

theorem trxSplitsWell_sound (hwell : TrxSplitsWell w h m) : TrxSound w h m := by
  intro passes s r hparse
  obtain ⟨n, hstop, rfl, rfl⟩ := parseTrx_iff.mp ⟨passes, hparse⟩
  have hsplit (kernel rootfs : Partition)
      (hok : trxParts w h m (trxEnd w h m n) = .ok (kernel, rootfs)) :
      TrxSplit h m (trxEnd w h m n).offset kernel rootfs := by
    rcases Nat.lt_or_ge (trxVisit w m n) m.size with hin | hend
    · rw [trxEnd_of_lt hin] at hok ⊢
      cases hheader : trxHeaderAt h m (trxVisit w m n) with
      | none =>
        rw [hheader] at hok
        cases hok
      | some hdr =>
        rw [hheader] at hok
        obtain ⟨hparts, rfl, rfl⟩ := trxParts_iff.mp hok
        obtain ⟨haligned, hfits, hplaces⟩ := hwell.taken n hdr hstop hin hheader hparts
        exact (trxSplit_iff hparts).mpr ⟨⟨haligned, hin, hdr, hheader, hfits⟩, hplaces⟩
    · rw [trxEnd_of_le hend] at hok
      cases n with
      | zero => cases hok
      | succ n =>
        rw [trxLast] at hok
        cases hheader : trxHeaderAt h m (trxVisit w m n) with
        | none =>
          rw [hheader] at hok
          cases hok
        | some hdr =>
          rw [hheader] at hok
          exact absurd (trxParts_iff.mp hok).1 (hwell.beyond n hdr hstop hend hheader)
  refine ⟨hsplit, fun hunfit => ?_⟩
  cases hok : trxParts w h m (trxEnd w h m n) with
  | error e => exact ⟨e, rfl⟩
  | ok parts =>
    -- a split of an image that does not fit is none
    obtain ⟨haligned, hbelow, ⟨hdr, hheader, hfits⟩, -⟩ := hsplit parts.1 parts.2 hok
    obtain ⟨hdr', hlast, hlong⟩ := hunfit
    have hoffset : (trxEnd w h m n).offset = trxVisit w m n := rfl
    rw [trxEnd_of_lt (hoffset ▸ hbelow)] at hheader hlast hlong hfits hbelow
    dsimp only at hheader hlast hlong hfits hbelow
    rw [hheader] at hlast hlong
    omega

theorem sound_trxSplitsWell (hsound : TrxSound w h m) : TrxSplitsWell w h m := by
  have hresult {n : ℕ} (hstop : TrxStopsAt w h m n) (kernel rootfs : Partition)
      (hok : trxParts w h m (trxEnd w h m n) = .ok (kernel, rootfs)) :
      TrxSplit h m (trxEnd w h m n).offset kernel rootfs := by
    obtain ⟨passes, hparse⟩ := parseTrx_iff.mpr ⟨n, hstop, rfl, rfl⟩
    exact (hsound passes _ _ hparse).1 kernel rootfs hok
  constructor
  · intro n hdr hstop hin hheader hparts
    have hok := trxParts_iff.mpr ⟨hparts, rfl, rfl⟩
    rw [← hheader, ← trxEnd_of_lt hin] at hok
    have hsplit := hresult hstop _ _ hok
    obtain ⟨⟨haligned, -, hdr', hheader', hfits⟩, hplaces⟩ := (trxSplit_iff hparts).mp hsplit
    obtain rfl := Option.some.inj (hheader.symm.trans hheader')
    exact ⟨haligned, hfits, hplaces⟩
  · intro n hdr hstop hend hheader hparts
    have hok := trxParts_iff.mpr ⟨hparts, rfl, rfl⟩
    have hlast : trxLast w h m (n + 1) = some hdr := hheader
    rw [← hlast, ← trxEnd_of_le hend] at hok
    have hbelow := (hresult hstop _ _ hok).below
    exact absurd hbelow (not_lt.mpr hend)

end

/-- When the split of a device can be trusted. -/
theorem mtdsplitParseTrx_sound_iff (w : SizeT) (h : Host) (m : Mtd) :
    TrxSound w h m ↔ TrxSplitsWell w h m :=
  ⟨sound_trxSplitsWell, trxSplitsWell_sound⟩

/-- In the last block a header whose image is as long as the whole device. -/
def exceedingTrx : Mtd where
  size := 0x20000
  erasesize := 0x10000
  erasesize_pos := block_pos
  content x := (List.lookup x [(0x10000, 0x48), (0x10001, 0x44), (0x10002, 0x52), (0x10003, 0x30),
    (0x10006, 0x02), (0x10010, 0x1c), (0x10015, 0x80)]).getD 0
  readError _ _ := 0

/-- Both partitions start behind the end of the device. -/
theorem exceedingTrx_split :
    (mtdsplitParseTrx .bits32 .little exceedingTrx 3).map (fun r => (r.1.offset, r.2)) =
        some (0x20000, .ok (⟨0x2001c, 0x7fe4⟩, ⟨0x28000, 2 ^ 32 - 0x8000⟩)) ∧
      ¬TrxSound .bits32 .little exceedingTrx := by
  have hparse : (mtdsplitParseTrx .bits32 .little exceedingTrx 3).map (fun r => (r.1.offset, r.2)) =
      some (0x20000, .ok (⟨0x2001c, 0x7fe4⟩, ⟨0x28000, 2 ^ 32 - 0x8000⟩)) := by
    decide +kernel
  refine ⟨hparse, fun h => ?_⟩
  obtain ⟨⟨s, r⟩, hsome, heq⟩ := Option.map_eq_some_iff.mp hparse
  obtain ⟨hoffset, hr⟩ := Prod.mk.inj heq
  have hbelow := ((h 3 s r hsome).1 _ _ hr).below
  rw [hoffset] at hbelow
  exact absurd hbelow (by decide)

end Iot7688.Mtdsplit
