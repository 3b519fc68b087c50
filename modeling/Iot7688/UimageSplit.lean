import Iot7688.Lib.Memory

/-!
The firmware splitter of the kernel for uImages: a header is searched at the erase
blocks of a device, and the device is divided into kernel and rootfs. size_t has 32
bits, the size of a device 64; the two loops take a bound on their passes. Allocations
are taken to succeed. The loop leaves an offset and a size behind also when the last header
it saw did not fit, and the size is a 32-bit sum.
-/
namespace Iot7688.UimageSplit

open Lib

/-- size_t. -/
def u32 (n : ℕ) : ℕ := n % 2 ^ 32

/-- An MTD device, with the error that a read of a segment gives, or 0. -/
structure Mtd where
  size : ℕ
  erasesize : ℕ
  erasesize_pos : 0 < erasesize
  content : Mem
  readError : ℕ → ℕ → ℤ

/-- The erase blocks of a common flash are not empty. -/
theorem block_pos : 0 < 0x10000 := by
  decide

def eio : ℤ := -5
def enodev : ℤ := -19
def einval : ℤ := -22
def enospc : ℤ := -28

/-- mtd_read; a short read is an error too. -/
def mtdRead (m : Mtd) (offset len : ℕ) : Except ℤ Mem :=
  if m.size < offset + len then .error einval
  else if m.readError offset len ≠ 0 then .error (m.readError offset len)
  else .ok (m.content.shift offset)

def word (buf : Mem) (i : ℕ) : List Byte := [buf i, buf (i + 1), buf (i + 2), buf (i + 3)]

def be32ToCpu (w : List Byte) : ℕ := w.foldl (fun n b => 256 * n + b.toNat) 0

def maxHeaderLen : ℕ := 84

/-- sizeof(struct uimage_header), and the fields that are read. -/
def headerLen : ℕ := 64

def ihMagic (header : Mem) : ℕ := be32ToCpu (word header 0)
def ihSize (header : Mem) : ℕ := be32ToCpu (word header 12)
def ihOs (header : Mem) : Byte := header 28
def ihType (header : Mem) : Byte := header 30

def ihOsLinux : Byte := 5
def ihTypeKernel : Byte := 2
def ihTypeFilesystem : Byte := 7

def uimageVerifyDefault (buf : Mem) (_len : ℕ) : ℤ :=
  if ihMagic buf ≠ 0x27051956 then einval
  else if ihOs buf ≠ ihOsLinux then einval
  else if ihType buf ≠ ihTypeKernel then einval
  else 0

def uimageVerifyWndr3700 (buf : Mem) (_len : ℕ) : ℤ :=
  let expected : Option Byte :=
    if ihMagic buf ∈ [0x32303631, 0x31303031, 0x31303030, 0x32303033, 0x32323030, 0x33373030,
      0x33373031] then some ihTypeFilesystem
    else if ihMagic buf = 0x32303034 then some ihTypeKernel
    else none
  match expected with
  | none => einval
  | some expectedType =>
      if ihOs buf ≠ ihOsLinux ∨ ihType buf ≠ expectedType then einval else 0

def fwEdimaxOffset : ℕ := 20

def uimageFindEdimax (buf : Mem) (len : ℕ) : ℤ :=
  if len < fwEdimaxOffset + headerLen then enospc
  else
    let header := buf.shift fwEdimaxOffset
    if ihMagic header ≠ 0x43535953 then einval
    else if ihOs header ≠ ihOsLinux ∨ ihType header ≠ ihTypeFilesystem then einval
    else fwEdimaxOffset

/-- The three parsers: uimage-fw, netgear-fw and edimax-fw. -/
inductive Parser
  | generic
  | netgear
  | edimax

def Parser.findHeader : Parser → Mem → ℕ → ℤ
  | .generic => uimageVerifyDefault
  | .netgear => uimageVerifyWndr3700
  | .edimax => uimageFindEdimax

/-- The two magic words as this little-endian board reads them. -/
def squashfsMagic : List Byte := [0x68, 0x73, 0x71, 0x73]
def jffs2Magic : List Byte := [0x03, 0x20, 0x85, 0x19]

def mtdCheckRootfsMagic (m : Mtd) (offset : ℕ) : ℤ :=
  match mtdRead m offset 4 with
  | .error e => e
  | .ok buf => if word buf 0 ≠ squashfsMagic ∧ word buf 0 ≠ jffs2Magic then einval else 0

def mtdNextEb (m : Mtd) (offset : ℕ) : ℕ := u32 (offset / m.erasesize * m.erasesize + m.erasesize)

/-- The offset found, or none at the limit. -/
def mtdFindRootfsFrom (m : Mtd) (limit : ℕ) : ℕ → ℕ → Option (Option ℕ)
  | 0, _ => none
  | fuel + 1, offset =>
      if limit ≤ offset then some none
      else if mtdCheckRootfsMagic m offset ≠ 0 then
        mtdFindRootfsFrom m limit fuel (mtdNextEb m offset)
      else some (some offset)

/-- The header that find_header accepts in a block: its offset and ih_size. -/
def headerAt (m : Mtd) (p : Parser) (offset : ℕ) : Option (ℕ × ℕ) :=
  match mtdRead m offset maxHeaderLen with
  | .error _ => none
  | .ok buf =>
      let ret := p.findHeader buf maxHeaderLen
      if ret < 0 then none else some (ret.toNat, ihSize (buf.shift ret.toNat))

/-- uimage_size. -/
def imageSize (size : ℕ) : ℕ := u32 (headerLen + size)

/-- The loop over the erase blocks: offset and uimage_size at its end. -/
def scan (m : Mtd) (p : Parser) : ℕ → ℕ → ℕ → Option (ℕ × ℕ)
  | 0, _, _ => none
  | fuel + 1, offset, uimageSize =>
      if m.size ≤ offset then some (offset, uimageSize)
      else
        match headerAt m p offset with
        | none => scan m p fuel (u32 (offset + m.erasesize)) 0
        | some (_, size) =>
            if u32 (offset + imageSize size) > m.size then
              scan m p fuel (u32 (offset + m.erasesize)) (imageSize size)
            else some (offset, imageSize size)

structure Partition where
  offset : ℕ
  size : ℕ
deriving DecidableEq

/-- The two partitions, and which of them comes first in the table. -/
structure Split where
  kernel : Partition
  rootfs : Partition
  uimagePart : ℕ
  rfPart : ℕ
deriving DecidableEq

/-- What follows the loop. -/
def split (m : Mtd) (fuel uimageOffset uimageSize : ℕ) : Option (Except ℤ Split) :=
  if uimageSize = 0 then some (.error enodev)
  else if uimageOffset = 0 then
    match mtdFindRootfsFrom m (u32 m.size) fuel (u32 (uimageOffset + uimageSize)) with
    | none => none
    | some none => some (.error enodev)
    | some (some rootfsOffset) =>
        let rootfsSize := u32 (m.size - rootfsOffset)
        if rootfsSize = 0 then some (.error enodev)
        else some (.ok ⟨⟨uimageOffset, rootfsOffset - uimageOffset⟩, ⟨rootfsOffset, rootfsSize⟩, 0, 1⟩)
  else if mtdCheckRootfsMagic m 0 ≠ 0 then some (.error (mtdCheckRootfsMagic m 0))
  else some (.ok ⟨⟨uimageOffset, uimageSize⟩, ⟨0, uimageOffset⟩, 1, 0⟩)

/-- __mtdsplit_parse_uimage, with bounds for its two loops. -/
def mtdsplitParseUimage (m : Mtd) (p : Parser) (passes fuel : ℕ) : Option (Except ℤ Split) :=
  match scan m p passes 0 0 with
  | none => none
  | some (offset, uimageSize) => split m fuel offset uimageSize

variable (m : Mtd) (p : Parser)

/-- A block with an accepted header, all of whose image lies in the device. -/
def FitsAt (offset : ℕ) : Prop :=
  ∃ ret size, headerAt m p offset = some (ret, size) ∧
    offset + ret + headerLen + size ≤ m.size

structure WellSplit (s : Split) : Prop where
  aligned : m.erasesize ∣ s.kernel.offset
  below : s.kernel.offset < m.size
  image : ∃ ret size, headerAt m p s.kernel.offset = some (ret, size) ∧
    ret + headerLen + size ≤ s.kernel.size
  magic : mtdCheckRootfsMagic m s.rootfs.offset = 0
  kernel_inside : s.kernel.offset + s.kernel.size ≤ m.size
  rootfs_inside : s.rootfs.offset + s.rootfs.size ≤ m.size
  disjoint : s.kernel.offset + s.kernel.size ≤ s.rootfs.offset ∨
    s.rootfs.offset + s.rootfs.size ≤ s.kernel.offset

/-- A split that is returned is a good one, and there is an error when no image fits. -/
def Sound : Prop :=
  (∀ passes fuel s, mtdsplitParseUimage m p passes fuel = some (.ok s) → WellSplit m p s) ∧
    ((∀ k, ¬FitsAt m p (k * m.erasesize)) →
      ∃ passes fuel e, mtdsplitParseUimage m p passes fuel = some (.error e))

/-- The offset of a pass of the loop. -/
def visit (i : ℕ) : ℕ := u32 (i * m.erasesize)

/-- The end of the image, as far as 32 bits show it, lies in the device. -/
def Taken (offset : ℕ) : Prop :=
  ∃ ret size, headerAt m p offset = some (ret, size) ∧ u32 (offset + imageSize size) ≤ m.size

/-- The loop ends at this pass. -/
structure StopsAt (i : ℕ) : Prop where
  stop : m.size ≤ visit m i ∨ Taken m p (visit m i)
  first : ∀ j, j < i → visit m j < m.size ∧ ¬Taken m p (visit m j)

/-- What a block leaves in uimage_size. -/
def sizeLeft (offset : ℕ) : ℕ :=
  match headerAt m p offset with
  | none => 0
  | some (_, size) => imageSize size

/-- uimage_size when the loop is at a pass. -/
def carried (i : ℕ) : ℕ :=
  match i with
  | 0 => 0
  | i + 1 => sizeLeft m p (visit m i)

/-- uimage_size when the loop ends at a pass. -/
def finalSize (i : ℕ) : ℕ :=
  if m.size ≤ visit m i then carried m p i else sizeLeft m p (visit m i)

variable {m p}

theorem u32_le (n : ℕ) : u32 n ≤ n := Nat.mod_le _ _

theorem visit_zero : visit m 0 = 0 := by
  rw [visit, Nat.zero_mul]
  rfl

theorem visit_succ (i : ℕ) : u32 (visit m i + m.erasesize) = visit m (i + 1) := by
  rw [visit, visit, u32, u32, u32, Nat.mod_add_mod, Nat.succ_mul]

theorem scan_stop {i : ℕ} (h : m.size ≤ visit m i ∨ Taken m p (visit m i)) (fuel : ℕ) :
    scan m p (fuel + 1) (visit m i) (carried m p i) = some (visit m i, finalSize m p i) := by
  unfold scan finalSize
  by_cases hend : m.size ≤ visit m i
  · rw [if_pos hend, if_pos hend]
  · obtain ⟨ret, size, hheader, hfits⟩ := h.resolve_left hend
    rw [if_neg hend, if_neg hend, sizeLeft, hheader]
    dsimp only
    rw [if_neg (by omega)]

theorem scan_next {i : ℕ} (hend : visit m i < m.size) (h : ¬Taken m p (visit m i)) (fuel : ℕ) :
    scan m p (fuel + 1) (visit m i) (carried m p i) =
      scan m p fuel (visit m (i + 1)) (carried m p (i + 1)) := by
  rw [scan, if_neg (by omega), carried, sizeLeft]
  cases hheader : headerAt m p (visit m i) with
  | none =>
    dsimp only
    rw [visit_succ]
  | some r =>
    obtain ⟨ret, size⟩ := r
    have hlong : u32 (visit m i + imageSize size) > m.size := by
      by_contra hfits
      exact h ⟨ret, size, hheader, Nat.not_lt.mp hfits⟩
    dsimp only
    rw [if_pos hlong, visit_succ]

/-- The loop ends where its conditions say. -/
theorem scan_some {passes offset size : ℕ} :
    ∀ i, (∀ j, j < i → visit m j < m.size ∧ ¬Taken m p (visit m j)) →
      scan m p passes (visit m i) (carried m p i) = some (offset, size) →
        ∃ n, StopsAt m p n ∧ offset = visit m n ∧ size = finalSize m p n := by
  induction passes with
  | zero => exact fun i _ h => by cases h
  | succ passes ih =>
    intro i hfirst h
    by_cases hstop : m.size ≤ visit m i ∨ Taken m p (visit m i)
    · rw [scan_stop hstop] at h
      obtain ⟨rfl, rfl⟩ := Prod.mk.inj (Option.some.inj h)
      exact ⟨i, ⟨hstop, hfirst⟩, rfl, rfl⟩
    · rw [not_or, Nat.not_le] at hstop
      rw [scan_next hstop.1 hstop.2] at h
      refine ih (i + 1) (fun j hj => ?_) h
      rcases Nat.lt_succ_iff_lt_or_eq.mp hj with hj | rfl
      · exact hfirst j hj
      · exact hstop

theorem scan_of_stopsAt {n : ℕ} (h : StopsAt m p n) :
    scan m p (n + 1) 0 0 = some (visit m n, finalSize m p n) := by
  have hrun (k i : ℕ) (hk : i + k = n) :
      scan m p (k + 1) (visit m i) (carried m p i) = some (visit m n, finalSize m p n) := by
    induction k generalizing i with
    | zero =>
      obtain rfl : i = n := hk
      exact scan_stop h.stop 0
    | succ k ih =>
      obtain ⟨hend, htaken⟩ := h.first i (by omega)
      rw [scan_next hend htaken]
      exact ih (i + 1) (by omega)
  have := hrun n 0 (Nat.zero_add n)
  rwa [visit_zero] at this

/-- The pass at which the loop ends is unique. -/
theorem stopsAt_unique {a b : ℕ} (ha : StopsAt m p a) (hb : StopsAt m p b) : a = b := by
  rcases Nat.lt_trichotomy a b with hlt | heq | hgt
  · obtain ⟨hend, htaken⟩ := hb.first a hlt
    exact absurd ha.stop (not_or.mpr ⟨Nat.not_le.mpr hend, htaken⟩)
  · exact heq
  · obtain ⟨hend, htaken⟩ := ha.first b hgt
    exact absurd hb.stop (not_or.mpr ⟨Nat.not_le.mpr hend, htaken⟩)

theorem parse_iff {r : Except ℤ Split} :
    (∃ passes fuel, mtdsplitParseUimage m p passes fuel = some r) ↔
      ∃ n, StopsAt m p n ∧ ∃ fuel, split m fuel (visit m n) (finalSize m p n) = some r := by
  constructor
  · rintro ⟨passes, fuel, h⟩
    unfold mtdsplitParseUimage at h
    cases hscan : scan m p passes 0 0 with
    | none =>
      rw [hscan] at h
      cases h
    | some q =>
      obtain ⟨offset, size⟩ := q
      rw [hscan] at h
      have hzero : scan m p passes (visit m 0) (carried m p 0) = some (offset, size) := by
        rw [visit_zero]
        exact hscan
      obtain ⟨n, hstop, rfl, rfl⟩ := scan_some 0 (fun j hj => absurd hj (by omega)) hzero
      exact ⟨n, hstop, fuel, h⟩
  · rintro ⟨n, hstop, fuel, h⟩
    refine ⟨n + 1, fuel, ?_⟩
    rw [mtdsplitParseUimage, scan_of_stopsAt hstop]
    exact h

theorem findRootfs_some {limit fuel offset r : ℕ}
    (h : mtdFindRootfsFrom m limit fuel offset = some (some r)) :
    r < limit ∧ mtdCheckRootfsMagic m r = 0 := by
  induction fuel generalizing offset with
  | zero => cases h
  | succ fuel ih =>
    rw [mtdFindRootfsFrom] at h
    split at h
    · cases h
    · next hlimit =>
      split at h
      · exact ih h
      · next hmagic =>
        obtain rfl := Option.some.inj (Option.some.inj h)
        exact ⟨Nat.not_le.mp hlimit, not_not.mp hmagic⟩

/-- The size behind a rootfs found in front of the limit. -/
theorem rootfsSize_pos {size r : ℕ} (h : r < u32 size) : 0 < u32 (size - r) ∧ r ≤ size := by
  unfold u32 at *
  omega

/-- The split with the image in front. -/
theorem split_front (fuel : ℕ) {uimageSize : ℕ} (h : uimageSize ≠ 0) :
    split m fuel 0 uimageSize =
      match mtdFindRootfsFrom m (u32 m.size) fuel (u32 uimageSize) with
      | none => none
      | some none => some (.error enodev)
      | some (some r) => some (.ok ⟨⟨0, r⟩, ⟨r, u32 (m.size - r)⟩, 0, 1⟩) := by
  rw [split, if_neg h, if_pos rfl, Nat.zero_add]
  cases hfind : mtdFindRootfsFrom m (u32 m.size) fuel (u32 uimageSize) with
  | none => rfl
  | some found =>
    cases found with
    | none => rfl
    | some r =>
      have hpos := (rootfsSize_pos (findRootfs_some hfind).1).1
      dsimp only
      rw [if_neg (by omega), Nat.sub_zero]

theorem split_behind (m : Mtd) (fuel : ℕ) {offset uimageSize : ℕ} (hoff : offset ≠ 0)
    (h : uimageSize ≠ 0) :
    split m fuel offset uimageSize =
      if mtdCheckRootfsMagic m 0 ≠ 0 then some (.error (mtdCheckRootfsMagic m 0))
      else some (.ok ⟨⟨offset, uimageSize⟩, ⟨0, offset⟩, 1, 0⟩) := by
  rw [split, if_neg h, if_neg hoff]

theorem split_empty (fuel offset : ℕ) : split m fuel offset 0 = some (.error enodev) := by
  rw [split, if_pos rfl]

variable (m p)

/-- The conditions for a trustworthy split. -/
structure SplitsWell : Prop where
  /-- With the first block accepted, the first rootfs magic found lies behind the image. -/
  front : ∀ ret size, StopsAt m p 0 → headerAt m p 0 = some (ret, size) → imageSize size ≠ 0 →
    ∀ fuel r, mtdFindRootfsFrom m (u32 m.size) fuel (imageSize size) = some (some r) →
      ret + headerLen + size ≤ r
  /-- With a later block accepted behind a rootfs, its image fits without a prefix. -/
  behind : ∀ n ret size, StopsAt m p n → visit m n ≠ 0 → visit m n < m.size →
    headerAt m p (visit m n) = some (ret, size) → imageSize size ≠ 0 →
      mtdCheckRootfsMagic m 0 = 0 → m.erasesize ∣ visit m n ∧ ret = 0 ∧
        headerLen + size < 2 ^ 32 ∧ visit m n + (headerLen + size) ≤ m.size
  /-- With no block accepted, a header in the last one has no rootfs in front. -/
  beyond : ∀ n ret size, StopsAt m p (n + 1) → m.size ≤ visit m (n + 1) →
    headerAt m p (visit m n) = some (ret, size) → imageSize size ≠ 0 →
      mtdCheckRootfsMagic m 0 ≠ 0
  /-- Where a loop does not end, some image fits. -/
  ends : ((∀ n, ¬StopsAt m p n) ∨ ∃ ret size, StopsAt m p 0 ∧ headerAt m p 0 = some (ret, size) ∧
      imageSize size ≠ 0 ∧ ∀ fuel, mtdFindRootfsFrom m (u32 m.size) fuel (imageSize size) = none) →
    ∃ k, FitsAt m p (k * m.erasesize)

variable {m p}

theorem u32_imageSize (size : ℕ) : u32 (imageSize size) = imageSize size := Nat.mod_mod _ _

/-- The three ways in which the loop ends with a size. -/
theorem stopsAt_cases {n : ℕ} (h : StopsAt m p n) (hsize : finalSize m p n ≠ 0) :
    ∃ ret size, finalSize m p n = imageSize size ∧
      (n = 0 ∧ 0 < m.size ∧ headerAt m p 0 = some (ret, size) ∨
        visit m n ≠ 0 ∧ visit m n < m.size ∧ headerAt m p (visit m n) = some (ret, size) ∨
        ∃ k, n = k + 1 ∧ visit m n ≠ 0 ∧ m.size ≤ visit m n ∧
          headerAt m p (visit m k) = some (ret, size)) := by
  have hleft {offset : ℕ} (hne : sizeLeft m p offset ≠ 0) : ∃ ret size,
      headerAt m p offset = some (ret, size) ∧ sizeLeft m p offset = imageSize size := by
    unfold sizeLeft at hne ⊢
    cases hheader : headerAt m p offset with
    | none =>
      rw [hheader] at hne
      exact absurd rfl hne
    | some r => exact ⟨r.1, r.2, rfl, rfl⟩
  unfold finalSize at hsize ⊢
  by_cases hend : m.size ≤ visit m n
  · rw [if_pos hend] at hsize ⊢
    cases n with
    | zero => exact absurd rfl hsize
    | succ k =>
      obtain ⟨ret, size, hheader, heq⟩ := hleft hsize
      have hin := (h.first k (Nat.lt_succ_self k)).1
      exact ⟨ret, size, heq, Or.inr (Or.inr ⟨k, rfl, by omega, hend, hheader⟩)⟩
  · rw [if_neg hend] at hsize ⊢
    obtain ⟨ret, size, hheader, heq⟩ := hleft hsize
    refine ⟨ret, size, heq, ?_⟩
    by_cases hzero : visit m n = 0
    · -- an earlier pass would have ended at the same block
      have hn : n = 0 := by
        by_contra hn
        obtain ⟨hin, htaken⟩ := h.first 0 (by omega)
        rw [visit_zero, ← hzero] at hin htaken
        exact (not_or.mpr ⟨Nat.not_le.mpr hin, htaken⟩) h.stop
      rw [hzero] at hheader
      exact Or.inl ⟨hn, by omega, hheader⟩
    · exact Or.inr (Or.inl ⟨hzero, by omega, hheader⟩)

/-- What is behind the front image, in full. -/
theorem parse_front {ret size : ℕ} (hpos : 0 < m.size)
    (hheader : headerAt m p 0 = some (ret, size)) (hne : imageSize size ≠ 0) (fuel : ℕ) :
    split m fuel (visit m 0) (finalSize m p 0) =
      match mtdFindRootfsFrom m (u32 m.size) fuel (imageSize size) with
      | none => none
      | some none => some (.error enodev)
      | some (some r) => some (.ok ⟨⟨0, r⟩, ⟨r, u32 (m.size - r)⟩, 0, 1⟩) := by
  have hsize : finalSize m p 0 = imageSize size := by
    unfold finalSize sizeLeft
    rw [visit_zero, if_neg (by omega), hheader]
  rw [hsize, visit_zero, split_front fuel hne, u32_imageSize]

theorem splitsWell_wellSplit (h : SplitsWell m p) {passes fuel : ℕ} {s : Split}
    (hparse : mtdsplitParseUimage m p passes fuel = some (.ok s)) : WellSplit m p s := by
  obtain ⟨n, hstop, fuel, hsplit⟩ := parse_iff.mp ⟨passes, fuel, hparse⟩
  by_cases hzero : finalSize m p n = 0
  · rw [hzero, split_empty] at hsplit
    cases hsplit
  obtain ⟨ret, size, hsize, hcase⟩ := stopsAt_cases hstop hzero
  have hne : imageSize size ≠ 0 := hsize ▸ hzero
  rcases hcase with ⟨rfl, hpos, hheader⟩ | ⟨hoff, hin, hheader⟩ | ⟨k, rfl, hoff, hend, hheader⟩
  · rw [parse_front hpos hheader hne] at hsplit
    cases hfind : mtdFindRootfsFrom m (u32 m.size) fuel (imageSize size) with
    | none =>
      rw [hfind] at hsplit
      cases hsplit
    | some found =>
      rw [hfind] at hsplit
      cases found with
      | none => cases hsplit
      | some r =>
        obtain rfl := Except.ok.inj (Option.some.inj hsplit)
        obtain ⟨hlimit, hmagic⟩ := findRootfs_some hfind
        have hr := (rootfsSize_pos hlimit).2
        have hrest := u32_le (m.size - r)
        have himage := h.front ret size hstop hheader hne fuel r hfind
        exact ⟨dvd_zero _, hpos, ⟨ret, size, hheader, himage⟩,
          hmagic, by dsimp only; omega, by dsimp only; omega, Or.inl (by dsimp only; omega)⟩
  · rw [hsize, split_behind m fuel hoff hne] at hsplit
    by_cases hmagic : mtdCheckRootfsMagic m 0 = 0
    · rw [if_neg (not_not.mpr hmagic)] at hsplit
      obtain rfl := Except.ok.inj (Option.some.inj hsplit)
      obtain ⟨hdvd, rfl, hlt, hfit⟩ := h.behind n ret size hstop hoff hin hheader hne hmagic
      have hexact : imageSize size = headerLen + size := Nat.mod_eq_of_lt hlt
      exact ⟨hdvd, hin, ⟨0, size, hheader, by dsimp only; omega⟩, hmagic, by dsimp only; omega,
        by dsimp only; omega, Or.inr (by dsimp only; omega)⟩
    · rw [if_pos hmagic] at hsplit
      cases hsplit
  · have hmagic := h.beyond k ret size hstop hend hheader hne
    rw [hsize, split_behind m fuel hoff hne, if_pos hmagic] at hsplit
    cases hsplit

/-- The loops end with an error when no image fits. -/
theorem splitsWell_error (h : SplitsWell m p) (hno : ∀ k, ¬FitsAt m p (k * m.erasesize)) :
    ∃ passes fuel e, mtdsplitParseUimage m p passes fuel = some (.error e) := by
  have herror {e : ℤ} {n fuel : ℕ} (hstop : StopsAt m p n)
      (hsplit : split m fuel (visit m n) (finalSize m p n) = some (.error e)) :
      ∃ passes fuel e, mtdsplitParseUimage m p passes fuel = some (.error e) := by
    obtain ⟨passes, fuel, hparse⟩ := parse_iff.mpr ⟨n, hstop, fuel, hsplit⟩
    exact ⟨passes, fuel, e, hparse⟩
  obtain ⟨n, hstop⟩ : ∃ n, StopsAt m p n := by
    by_contra hnone
    obtain ⟨k, hk⟩ := h.ends (Or.inl (not_exists.mp hnone))
    exact hno k hk
  by_cases hzero : finalSize m p n = 0
  · exact herror hstop (by rw [hzero]; exact split_empty 0 _)
  obtain ⟨ret, size, hsize, hcase⟩ := stopsAt_cases hstop hzero
  have hne : imageSize size ≠ 0 := hsize ▸ hzero
  rcases hcase with ⟨rfl, hpos, hheader⟩ | ⟨hoff, hin, hheader⟩ | ⟨k, rfl, hoff, hend, hheader⟩
  · by_cases hends : ∀ fuel, mtdFindRootfsFrom m (u32 m.size) fuel (imageSize size) = none
    · obtain ⟨k, hk⟩ := h.ends (Or.inr ⟨ret, size, hstop, hheader, hne, hends⟩)
      exact absurd hk (hno k)
    obtain ⟨fuel, hfuel⟩ := not_forall.mp hends
    have hsplit := parse_front hpos hheader hne fuel
    cases hfind : mtdFindRootfsFrom m (u32 m.size) fuel (imageSize size) with
    | none => exact absurd hfind hfuel
    | some found =>
      rw [hfind] at hsplit
      cases found with
      | none => exact herror hstop hsplit
      | some r =>
        have hbehind := h.front ret size hstop hheader hne fuel r hfind
        have hr := (rootfsSize_pos (findRootfs_some hfind).1).2
        refine absurd ⟨ret, size, ?_, ?_⟩ (hno 0)
        · rwa [Nat.zero_mul]
        · omega
  · by_cases hmagic : mtdCheckRootfsMagic m 0 = 0
    · obtain ⟨⟨k, hk⟩, rfl, hlt, hfit⟩ := h.behind n ret size hstop hoff hin hheader hne hmagic
      refine absurd ⟨0, size, ?_, ?_⟩ (hno k)
      · rwa [Nat.mul_comm, ← hk]
      · rw [Nat.mul_comm, ← hk]
        omega
    · have hsplit := split_behind m 0 hoff hne
      rw [if_pos hmagic, ← hsize] at hsplit
      exact herror hstop hsplit
  · have hmagic := h.beyond k ret size hstop hend hheader hne
    have hsplit := split_behind m 0 hoff hne
    rw [if_pos hmagic, ← hsize] at hsplit
    exact herror hstop hsplit

theorem sound_splitsWell (h : Sound m p) : SplitsWell m p := by
  obtain ⟨hwell, herror⟩ := h
  have hsplits {n fuel : ℕ} {s : Split} (hstop : StopsAt m p n)
      (hsplit : split m fuel (visit m n) (finalSize m p n) = some (.ok s)) : WellSplit m p s := by
    obtain ⟨passes, fuel, hparse⟩ := parse_iff.mpr ⟨n, hstop, fuel, hsplit⟩
    exact hwell passes fuel s hparse
  have hends (hnone : ¬∃ n, StopsAt m p n ∧ ∃ fuel e,
      split m fuel (visit m n) (finalSize m p n) = some (.error e)) :
      ∃ k, FitsAt m p (k * m.erasesize) := by
    by_contra hno
    obtain ⟨passes, fuel, e, hparse⟩ := herror (not_exists.mp hno)
    obtain ⟨n, hstop, fuel, hsplit⟩ := parse_iff.mp ⟨passes, fuel, hparse⟩
    exact hnone ⟨n, hstop, fuel, e, hsplit⟩
  -- the first block is accepted when the loop ends at it with a size
  have hpos {ret size : ℕ} (hheader : headerAt m p 0 = some (ret, size)) : 0 < m.size := by
    by_contra hzero
    rw [headerAt, mtdRead, if_pos (by rw [maxHeaderLen]; omega)] at hheader
    cases hheader
  constructor
  · intro ret size hstop hheader hne fuel r hfind
    have hsplit := parse_front (hpos hheader) hheader hne fuel
    rw [hfind] at hsplit
    obtain ⟨ret', size', hheader', hle⟩ := (hsplits hstop hsplit).image
    rw [hheader] at hheader'
    obtain ⟨rfl, rfl⟩ := Prod.mk.inj (Option.some.inj hheader')
    exact hle
  · intro n ret size hstop hoff hin hheader hne hmagic
    have hsize : finalSize m p n = imageSize size := by
      unfold finalSize sizeLeft
      rw [if_neg (by omega), hheader]
    have hsplit := split_behind m 0 hoff hne
    rw [if_neg (not_not.mpr hmagic), ← hsize] at hsplit
    obtain ⟨hdvd, _, ⟨ret', size', hheader', hle⟩, _, hinside, _, _⟩ := hsplits hstop hsplit
    dsimp only at hdvd hheader' hle hinside
    rw [hheader] at hheader'
    obtain ⟨rfl, rfl⟩ := Prod.mk.inj (Option.some.inj hheader')
    rw [hsize] at hle hinside
    have hwrap : imageSize size ≤ headerLen + size := u32_le _
    have hlt : imageSize size < 2 ^ 32 := Nat.mod_lt _ (by decide)
    exact ⟨hdvd, by omega, by omega, by omega⟩
  · intro n ret size hstop hend hheader hne hmagic
    have hin := (hstop.first n (Nat.lt_succ_self n)).1
    have hsize : finalSize m p (n + 1) = imageSize size := by
      unfold finalSize carried sizeLeft
      rw [if_pos hend]
      dsimp only
      rw [hheader]
    have hsplit := split_behind m 0 (show visit m (n + 1) ≠ 0 by omega) hne
    rw [if_neg (not_not.mpr hmagic), ← hsize] at hsplit
    have hbelow := (hsplits hstop hsplit).below
    dsimp only at hbelow
    omega
  · rintro (hnone | ⟨ret, size, hstop, hheader, hne, hfind⟩)
    · exact hends fun ⟨n, hstop, _⟩ => hnone n hstop
    · refine hends fun ⟨n, hstop', fuel, e, hsplit⟩ => ?_
      obtain rfl := stopsAt_unique hstop' hstop
      rw [parse_front (hpos hheader) hheader hne, hfind] at hsplit
      cases hsplit

/-- When the split of a device can be trusted: the property holds exactly under the
conditions on the block at which the loop ends. -/
theorem mtdsplitParseUimage_sound_iff (m : Mtd) (p : Parser) : Sound m p ↔ SplitsWell m p :=
  ⟨sound_splitsWell, fun h => ⟨fun _ _ _ => splitsWell_wellSplit h, splitsWell_error h⟩⟩

/-- A squashfs in front, and in the last block a header whose image exceeds the device. -/
def exceeding : Mtd where
  size := 0x20000
  erasesize := 0x10000
  erasesize_pos := block_pos
  content x := (List.lookup x [(0, 0x68), (1, 0x73), (2, 0x71), (3, 0x73), (0x10000, 0x27),
    (0x10001, 0x05), (0x10002, 0x19), (0x10003, 0x56), (0x1000d, 0x01), (0x1001c, 0x05),
    (0x1001e, 0x02)]).getD 0
  readError _ _ := 0

/-- The kernel partition starts behind the end of the device. -/
theorem exceeding_split :
    mtdsplitParseUimage exceeding .generic 3 0 =
        some (.ok ⟨⟨0x20000, 0x10040⟩, ⟨0, 0x20000⟩, 1, 0⟩) ∧
      ¬Sound exceeding .generic := by
  have hparse : mtdsplitParseUimage exceeding .generic 3 0 =
      some (.ok ⟨⟨0x20000, 0x10040⟩, ⟨0, 0x20000⟩, 1, 0⟩) := by
    decide +kernel
  refine ⟨hparse, fun h => ?_⟩
  have hbelow := (h.1 _ _ _ hparse).below
  exact absurd hbelow (by decide)

end Iot7688.UimageSplit
