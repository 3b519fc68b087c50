import Iot7688.Lib.ByteOrder
import Iot7688.Lib.Fields

/-!
The checksum of a SEAMA image: seama_fix_md5 on a buffer, with MD5 as any function to
sixteen bytes. The length of the meta data is subtracted from that of the buffer
without a test, so a buffer that ends before the image has the digest taken elsewhere.
-/
namespace Iot7688.Seama

open Lib

def seamaMagic : UInt32 := 0x5ea3a417

/-- sizeof(struct seama_hdr), and its fields. -/
def headerSize : ℕ := 12
def metasizeField : ℕ := 6
def sizeField : ℕ := 8
def digestSize : ℕ := 16

/-- ntohl of the size and ntohs of the length of the meta data. -/
def imageSize (buf : List Byte) : ℕ := (ofBe32 (segment buf sizeField 4)).toNat

def metaSize (buf : List Byte) : ℕ := leValue (segment buf metasizeField 2).reverse

/-- Where the image starts. -/
def dataStart (buf : List Byte) : ℕ := headerSize + digestSize + metaSize buf

/-- seama_fix_md5 on a buffer of its length, for a 32-bit size_t: the value that it returns
and the buffer, or no result when it reads behind the buffer. -/
def seamaFixMd5 (md5 : List Byte → Vector Byte 16) (buf : List Byte) : Option (ℤ × List Byte) :=
  if buf.length < headerSize then some (-1, buf)
  else if segment buf 0 4 ≠ be32 seamaMagic then some (-1, buf)
  else if imageSize buf = 0 then some (-1, buf)
  else
    let len := (buf.length + 2 ^ 32 - dataStart buf) % 2 ^ 32
    let isize := if imageSize buf > len then len else imageSize buf
    if buf.length < dataStart buf + isize then none
    else
      let digest := (md5 (segment buf (dataStart buf) isize)).toList
      if digest = segment buf headerSize digestSize then some (-1, buf)
      else
        let buf := patch buf sizeField (be32 (UInt32.ofNat isize))
        some (0, patch buf headerSize digest)

/-- A buffer after a successful fix: the size fits, the digest is that of the image, all
other bytes are as before, and there is nothing left to fix. -/
structure Fixed (md5 : List Byte → Vector Byte 16) (buf buf' : List Byte) : Prop where
  fits : dataStart buf + imageSize buf' ≤ buf.length
  digest : segment buf' headerSize digestSize =
    (md5 (segment buf' (dataStart buf) (imageSize buf'))).toList
  others : ∀ i, i < sizeField ∨ headerSize + digestSize ≤ i → buf'[i]? = buf[i]?
  again : seamaFixMd5 md5 buf' = some (-1, buf')

/-- It stays inside of the buffer, and what it returns is right. -/
def FixesRight (md5 : List Byte → Vector Byte 16) (buf : List Byte) : Prop :=
  ∃ ret buf', seamaFixMd5 md5 buf = some (ret, buf') ∧ (ret = 0 → Fixed md5 buf buf')

/-- The buffer is refused at once, or the digest and the meta data are in it. -/
def ImageInside (buf : List Byte) : Prop :=
  buf.length < headerSize ∨ segment buf 0 4 ≠ be32 seamaMagic ∨ imageSize buf = 0 ∨
    dataStart buf ≤ buf.length

variable {md5 : List Byte → Vector Byte 16} {buf : List Byte}

theorem fix_refused (h : buf.length < headerSize ∨ segment buf 0 4 ≠ be32 seamaMagic ∨
    imageSize buf = 0) : seamaFixMd5 md5 buf = some (-1, buf) := by
  unfold seamaFixMd5
  by_cases hlen : buf.length < headerSize
  · rw [if_pos hlen]
  · by_cases hmagic : segment buf 0 4 ≠ be32 seamaMagic
    · rw [if_neg hlen, if_pos hmagic]
    · rw [if_neg hlen, if_neg hmagic, if_pos ((h.resolve_left hlen).resolve_left hmagic)]

/-- The image that is hashed in a buffer that holds the digest and the meta data. -/
theorem fix_inside (hlen : buf.length < 2 ^ 32) (hheader : headerSize ≤ buf.length)
    (hmagic : segment buf 0 4 = be32 seamaMagic) (hsize : imageSize buf ≠ 0)
    (hinside : dataStart buf ≤ buf.length) {isize : ℕ}
    (hisize : isize = min (imageSize buf) (buf.length - dataStart buf)) {digest : List Byte}
    (hdigest : digest = (md5 (segment buf (dataStart buf) isize)).toList) :
    seamaFixMd5 md5 buf =
      if digest = segment buf headerSize digestSize then some (-1, buf)
      else some (0, patch (patch buf sizeField (be32 (UInt32.ofNat isize))) headerSize digest) := by
  have hwrap : (buf.length + 2 ^ 32 - dataStart buf) % 2 ^ 32 = buf.length - dataStart buf := by
    omega
  have hclamp : (if imageSize buf > buf.length - dataStart buf then buf.length - dataStart buf
      else imageSize buf) = isize := by
    rw [hisize, min_def]
    split
    · rw [if_neg (by omega)]
    · rw [if_pos (by omega)]
  have hroom : ¬buf.length < dataStart buf + isize := by omega
  unfold seamaFixMd5
  rw [if_neg (by omega), if_neg (not_not.mpr hmagic), if_neg hsize]
  dsimp only
  rw [hwrap, hclamp, if_neg hroom, ← hdigest]

/-- A buffer that ends before the image starts is read behind its end. -/
theorem fix_outside (hheader : headerSize ≤ buf.length)
    (hmagic : segment buf 0 4 = be32 seamaMagic) (hsize : imageSize buf ≠ 0)
    (houtside : buf.length < dataStart buf) : seamaFixMd5 md5 buf = none := by
  unfold seamaFixMd5
  rw [if_neg (by omega), if_neg (not_not.mpr hmagic), if_neg hsize]
  exact if_pos (by omega)

section

variable {isize : ℕ} {digest : List Byte} (hlen : buf.length < 2 ^ 32)
  (hdigest : digest.length = digestSize) (hroom : dataStart buf + isize ≤ buf.length)

include hlen hdigest hroom

/-- The fields of a buffer with a new size and a new digest. -/
theorem patched_fields :
    let buf' := patch (patch buf sizeField (be32 (UInt32.ofNat isize))) headerSize digest
    buf'.length = buf.length ∧ segment buf' 0 4 = segment buf 0 4 ∧ dataStart buf' = dataStart buf ∧
      imageSize buf' = isize ∧ segment buf' headerSize digestSize = digest ∧
      (∀ n, segment buf' (dataStart buf) n = segment buf (dataStart buf) n) ∧
      ∀ i, i < sizeField ∨ headerSize + digestSize ≤ i → buf'[i]? = buf[i]? := by
  have hstart : headerSize + digestSize ≤ dataStart buf := Nat.le_add_right _ _
  unfold headerSize digestSize at *
  have hbe := be32_length (UInt32.ofNat isize)
  have hfirst : sizeField + (be32 (UInt32.ofNat isize)).length ≤ buf.length := by
    unfold sizeField
    omega
  have hsecond : 12 + digest.length ≤
      (patch buf sizeField (be32 (UInt32.ofNat isize))).length := by
    rw [length_patch hfirst]
    omega
  have hdisjoint {off n : ℕ} (h : off + n ≤ sizeField ∨ 28 ≤ off) :
      segment (patch (patch buf sizeField (be32 (UInt32.ofNat isize))) 12 digest) off n =
        segment buf off n := by
    unfold sizeField at h
    rw [segment_patch_disjoint hsecond (by omega),
      segment_patch_disjoint hfirst (by unfold sizeField; omega)]
  refine ⟨?_, hdisjoint (Or.inl (by decide)), ?_, ?_, ?_, fun n => hdisjoint (Or.inr hstart), ?_⟩
  · rw [length_patch hsecond, length_patch hfirst]
  · unfold dataStart metaSize
    rw [hdisjoint (Or.inl (by decide))]
  · unfold imageSize
    rw [segment_patch_disjoint hsecond (Or.inl (by decide))]
    have hword := segment_patch hfirst
    rw [hbe] at hword
    rw [hword, ofBe32_be32, UInt32.toNat_ofNat']
    omega
  · have hword := segment_patch hsecond
    rwa [hdigest] at hword
  · intro i hi
    unfold sizeField at hi
    rw [getElem?_patch hsecond, if_neg (by omega), getElem?_patch hfirst,
      if_neg (by unfold sizeField; omega)]

end

/-- A successful fix, whatever the sizes are. -/
theorem fixed_of_inside (hlen : buf.length < 2 ^ 32)
    (hmagic : segment buf 0 4 = be32 seamaMagic) (hinside : dataStart buf ≤ buf.length)
    {isize : ℕ} (hisize : isize = min (imageSize buf) (buf.length - dataStart buf)) :
    Fixed md5 buf (patch (patch buf sizeField (be32 (UInt32.ofNat isize))) headerSize
      (md5 (segment buf (dataStart buf) isize)).toList) := by
  have hdigest : (md5 (segment buf (dataStart buf) isize)).toList.length = digestSize := by simp; rfl
  have hroom : dataStart buf + isize ≤ buf.length := by omega
  obtain ⟨hlength, hfirst, hstart, hsize, hstored, hdata, hothers⟩ :=
    patched_fields hlen hdigest hroom
  generalize patch (patch buf sizeField (be32 (UInt32.ofNat isize))) headerSize
    (md5 (segment buf (dataStart buf) isize)).toList = buf' at *
  refine ⟨by omega, ?_, hothers, ?_⟩
  · rw [hstored, hsize, hdata]
  · by_cases hzero : isize = 0
    · exact fix_refused (Or.inr (Or.inr (hsize.trans hzero)))
    · have hheader : headerSize ≤ buf'.length := by
        have : headerSize ≤ dataStart buf := by
          unfold dataStart
          omega
        omega
      rw [@fix_inside md5 buf' (by omega) hheader (hfirst.trans hmagic) (by omega) (by omega) isize
        (by omega) _ rfl, hstart, hdata, hstored, if_pos rfl]

/-- seama_fix_md5 stays in the buffer and fixes it rightly exactly when the digest and the
meta data lie in the buffer, or when it refuses it at once. -/
theorem seama_fix_iff (md5 : List Byte → Vector Byte 16) (hlen : buf.length < 2 ^ 32) :
    FixesRight md5 buf ↔ ImageInside buf := by
  by_cases hrefused : buf.length < headerSize ∨ segment buf 0 4 ≠ be32 seamaMagic ∨
      imageSize buf = 0
  · refine ⟨fun _ => ?_, fun _ => ⟨-1, buf, fix_refused hrefused, fun h => absurd h (by decide)⟩⟩
    rcases hrefused with h | h | h
    · exact Or.inl h
    · exact Or.inr (Or.inl h)
    · exact Or.inr (Or.inr (Or.inl h))
  · push Not at hrefused
    obtain ⟨hheader, hmagic, hsize⟩ := hrefused
    constructor
    · rintro ⟨ret, buf', hfix, _⟩
      by_contra hno
      have houtside : buf.length < dataStart buf := by
        by_contra hle
        exact hno (Or.inr (Or.inr (Or.inr (by omega))))
      rw [fix_outside hheader hmagic hsize houtside] at hfix
      cases hfix
    · rintro (h | h | h | hinside)
      · omega
      · exact absurd hmagic h
      · exact absurd h hsize
      · have hfix := @fix_inside md5 buf hlen hheader hmagic hsize hinside _ rfl _ rfl
        split at hfix
        · exact ⟨-1, buf, hfix, fun h => absurd h (by decide)⟩
        · exact ⟨0, _, hfix, fun _ => fixed_of_inside hlen hmagic hinside rfl⟩

/-- A header with the given lengths and no digest yet. -/
def bareHeader (metasize size : Byte) : List Byte :=
  [0x5e, 0xa3, 0xa4, 0x17, 0, 0, 0, metasize, 0, 0, 0, size] ++ List.replicate 16 0

/-- MD5 of no bytes. -/
def emptyDigest : Vector Byte 16 :=
  #v[0xd4, 0x1d, 0x8c, 0xd9, 0x8f, 0x00, 0xb2, 0x04, 0xe9, 0x80, 0x09, 0x98, 0xec, 0xf8, 0x42, 0x7e]

theorem seama_fix_bare : FixesRight (fun _ => emptyDigest) (bareHeader 0 5) :=
  (seama_fix_iff (fun _ => emptyDigest) (by decide)).mpr (Or.inr (Or.inr (Or.inr (by decide))))

/-- With one byte of meta data the image would start behind the buffer. -/
theorem short_buffer_read_outside : ¬FixesRight (fun _ => emptyDigest) (bareHeader 1 5) := by
  rintro ⟨ret, buf', hfix, _⟩
  have hnone : seamaFixMd5 (fun _ => emptyDigest) (bareHeader 1 5) = none := by decide
  rw [hnone] at hfix
  cases hfix

end Iot7688.Seama
