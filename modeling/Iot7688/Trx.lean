import Iot7688.Lib.Crc
import Iot7688.Lib.Fields

/-!
The two routines that set the checksum of a TRX header on flash: mtd_fixtrx, for a header
in an erase block, and trx_fixup, for one at the start of a device. The host is
little-endian. Where an access leaves the buffer or the mapped device there is no result.
-/
namespace Iot7688.Trx

open Lib

/-- A device of its size, with the size of its erase blocks. -/
structure Mtd where
  contents : List Byte
  erasesize : ℕ
  pos : 0 < erasesize
  int : erasesize < 2 ^ 31

/-- TRX_MAGIC, "HDR0". -/
def trxMagic : ℕ := 0x30524448

/-- The fields of struct trx_header. -/
def lenField : ℕ := 4
def crc32Field : ℕ := 8
def flagVersionField : ℕ := 12

def poly : BitVec 32 := 0xedb88320#32

/-- The loop of crc32 from 0xFFFFFFFF; crc32_table is the table of the polynomial. -/
def crc32 (bytes : List Byte) : ℕ := (Crc.updates poly 0xffffffff#32 bytes).toNat

/-- The bytes that crc32 covers: it has the length as an int and counts it down to zero, so
a negative one covers none. -/
def covered (len : ℤ) : ℕ := (len.bmod (2 ^ 32)).toNat

/-- crc32buf at a place of a buffer. -/
def crc32buf (buf : List Byte) (off : ℕ) (len : ℤ) : Option ℕ :=
  if covered len = 0 ∨ off + covered len ≤ buf.length then some (crc32 (segment buf off (covered len)))
  else none

def store (buf : List Byte) (off v : ℕ) : Option (List Byte) :=
  if off + 4 ≤ buf.length then some (patch buf off (leBytes 4 v)) else none

/-- exit(1) or a return of 0, with what is on flash then. -/
inductive Outcome
  | exit (contents : List Byte)
  | ret (contents : List Byte)
deriving DecidableEq

/-- The offset in its erase block, and where the block starts. -/
def restOf (m : Mtd) (offset : ℕ) : ℕ := offset &&& (m.erasesize - 1)

def blockOffset (m : Mtd) (offset : ℕ) : ℕ := offset - restOf m offset

def blockOf (m : Mtd) (contents : List Byte) (offset : ℕ) : List Byte :=
  segment contents (blockOffset m offset) m.erasesize

/-- The erase and the write of the block: whether MEMERASE succeeds, and how many bytes
pwrite writes. -/
def rewriteBlock (m : Mtd) (offset : ℕ) (erases : Bool) (written : ℕ) (buf : List Byte) : Outcome :=
  if erases then
    let erased := patch m.contents (blockOffset m offset) (List.replicate m.erasesize 0xff)
    let contents := patch erased (blockOffset m offset) (buf.take written)
    if written = m.erasesize then .ret contents else .exit contents
  else .exit m.contents

/-- mtd_fixtrx. Where the sum of the first test wraps around, pread fails. -/
def mtdFixtrx (m : Mtd) (offset : ℕ) (erases : Bool) (written : ℕ) : Option Outcome :=
  if m.contents.length < blockOffset m offset + m.erasesize then some (.exit m.contents)
  else do
    let rest := restOf m offset
    let buf := blockOf m m.contents offset
    let magic ← load buf rest 4
    if magic ≠ trxMagic then return .exit m.contents
    let len ← load buf (rest + lenField) 4
    if len = m.erasesize - rest then return .ret m.contents
    let buf ← store buf (rest + lenField) (m.erasesize - rest)
    let crc ← crc32buf buf (rest + flagVersionField) (m.erasesize - rest - 3 * 4)
    let buf ← store buf (rest + crc32Field) crc
    return rewriteBlock m offset erases written buf

/-- trx_fixup on a device, which mmap maps or not: what it returns, and the device. -/
def trxFixup (maps : Bool) (device : List Byte) : Option (ℤ × List Byte) :=
  if device.length = 0 then some (-1, device)
  else if maps = false then some (-1, device)
  else do
    let magic ← load device 0 4
    if magic ≠ trxMagic then return (-1, device)
    let len ← load device lenField 4
    let crc ← crc32buf device flagVersionField (len - flagVersionField)
    let device ← store device crc32Field crc
    return (0, device)

/-- The checksum field of a block holds that of the bytes from flag_version to its end. -/
def CrcStored (block : List Byte) (rest : ℕ) : Prop :=
  segment block (rest + crc32Field) 4 = leBytes 4 (crc32 (block.drop (rest + flagVersionField)))

instance (block : List Byte) (rest : ℕ) : Decidable (CrcStored block rest) :=
  inferInstanceAs (Decidable (_ = _))

/-- The header of the block is fixed, and all other bytes of the device are as before. -/
structure Fixed (m : Mtd) (offset : ℕ) (contents : List Byte) : Prop where
  len : segment (blockOf m contents offset) (restOf m offset + lenField) 4 =
    leBytes 4 (m.erasesize - restOf m offset)
  crc : CrcStored (blockOf m contents offset) (restOf m offset)
  others : ∀ i, i < offset + lenField ∨ offset + flagVersionField ≤ i →
    contents[i]? = m.contents[i]?

/-- mtd_fixtrx stays inside of its buffer, and a return of 0 means that the block is fixed. -/
def FixesRight (m : Mtd) (offset : ℕ) (erases : Bool) (written : ℕ) : Prop :=
  ∃ outcome, mtdFixtrx m offset erases written = some outcome ∧
    ∀ contents, outcome = .ret contents → Fixed m offset contents

/-- trx_fixup stays inside of the mapped device. -/
def FixupInside (device : List Byte) : Prop := ∃ result, trxFixup true device = some result

/-- The block of the offset is on the device, with the magic at the offset. -/
structure MagicAt (m : Mtd) (offset : ℕ) : Prop where
  block : blockOffset m offset + m.erasesize ≤ m.contents.length
  magic : load (blockOf m m.contents offset) (restOf m offset) 4 = some trxMagic

/-- The three fields are in the block, and with the length already set so is the checksum. -/
def BlockFixable (m : Mtd) (offset : ℕ) : Prop :=
  restOf m offset + flagVersionField ≤ m.erasesize ∧
    (field (blockOf m m.contents offset) (restOf m offset + lenField) 4 =
        m.erasesize - restOf m offset →
      CrcStored (blockOf m m.contents offset) (restOf m offset))

/-- The three fields are on the device, and so is what the length covers, unless it is too
small or, as an int, negative. -/
def LengthInside (device : List Byte) : Prop :=
  flagVersionField ≤ device.length ∧
    (field device lenField 4 ≤ device.length ∨ field device lenField 4 < flagVersionField ∨
      2 ^ 31 + flagVersionField ≤ field device lenField 4)

theorem covered_of_lt {n : ℕ} (hn : n < 2 ^ 31) : covered n = n := by
  unfold covered
  rw [Int.bmod_eq_of_le (by omega) (by omega), Int.toNat_natCast]

theorem crc32buf_of_le {buf : List Byte} {off n : ℕ} {len : ℤ} (hlen : covered len = n)
    (hinside : off + n ≤ buf.length) :
    crc32buf buf off len = some (crc32 (segment buf off n)) := by
  unfold crc32buf
  rw [hlen, if_pos (Or.inr hinside)]

theorem store_of_le {buf : List Byte} {off : ℕ} (h : off + 4 ≤ buf.length) (v : ℕ) :
    store buf off v = some (patch buf off (leBytes 4 v)) := if_pos h

section

variable {m : Mtd} {offset : ℕ}

theorem blockOffset_add (m : Mtd) (offset : ℕ) :
    blockOffset m offset + restOf m offset = offset :=
  Nat.sub_add_cancel Nat.and_le_left

theorem blockOf_length {contents : List Byte}
    (h : blockOffset m offset + m.erasesize ≤ contents.length) :
    (blockOf m contents offset).length = m.erasesize := length_segment h

/-- The block with both fields set. -/
def fixedBlock (m : Mtd) (offset : ℕ) : List Byte :=
  patch (patch (blockOf m m.contents offset) (restOf m offset + lenField)
      (leBytes 4 (m.erasesize - restOf m offset)))
    (restOf m offset + crc32Field)
    (leBytes 4 (crc32 ((blockOf m m.contents offset).drop (restOf m offset + flagVersionField))))

/-- The checksum of a block in which only the length is set. -/
theorem crc32buf_patched {block : List Byte} {rest : ℕ} (hlength : block.length = m.erasesize)
    (hfields : rest + flagVersionField ≤ m.erasesize) (len : ℕ) :
    crc32buf (patch block (rest + lenField) (leBytes 4 len)) (rest + flagVersionField)
        (m.erasesize - rest - 3 * 4) =
      some (crc32 (block.drop (rest + flagVersionField))) := by
  have hint := m.int
  unfold lenField flagVersionField at *
  have hpatch : rest + 4 + (leBytes 4 len).length ≤ block.length := by
    rw [leBytes_length]
    omega
  have hcast : (m.erasesize - rest - 3 * 4 : ℤ) = (m.erasesize - (rest + 12) : ℕ) := by omega
  have hcovered : covered (m.erasesize - rest - 3 * 4) = m.erasesize - (rest + 12) := by
    rw [hcast, covered_of_lt (by omega)]
  rw [crc32buf_of_le hcovered (by rw [length_patch hpatch]; omega),
    segment_patch_disjoint hpatch (by rw [leBytes_length]; omega), Lib.segment,
    List.take_of_length_le (by rw [List.length_drop]; omega)]

/-- What mtd_fixtrx does with a header that lies in the block. -/
theorem mtdFixtrx_inside (h : MagicAt m offset)
    (hfields : restOf m offset + flagVersionField ≤ m.erasesize) (erases : Bool) (written : ℕ) :
    mtdFixtrx m offset erases written =
      if field (blockOf m m.contents offset) (restOf m offset + lenField) 4 =
          m.erasesize - restOf m offset then some (.ret m.contents)
      else some (rewriteBlock m offset erases written (fixedBlock m offset)) := by
  unfold flagVersionField at hfields
  have hlength := blockOf_length h.block
  have hload : load (blockOf m m.contents offset) (restOf m offset + lenField) 4 =
      some (field (blockOf m m.contents offset) (restOf m offset + lenField) 4) := by
    apply load_of_le
    unfold lenField
    omega
  have hlen : restOf m offset + lenField + 4 ≤ (blockOf m m.contents offset).length := by
    unfold lenField
    omega
  have hcrc := crc32buf_patched hlength hfields (m.erasesize - restOf m offset)
  have hstore := @store_of_le (patch (blockOf m m.contents offset) (restOf m offset + lenField)
    (leBytes 4 (m.erasesize - restOf m offset))) (restOf m offset + crc32Field) (by
      rw [length_patch (by simpa using hlen)]
      unfold crc32Field
      omega)
  unfold mtdFixtrx
  rw [if_neg (by have := h.block; omega)]
  simp only [h.magic, hload, Option.bind_eq_bind, Option.bind_some, ne_eq, not_true, if_false]
  split
  · rfl
  · simp only [store_of_le hlen, Option.bind_some, hcrc, hstore]
    rfl

section

variable (hlength : (blockOf m m.contents offset).length = m.erasesize)
  (hfields : restOf m offset + flagVersionField ≤ m.erasesize)

include hlength hfields

theorem fixedBlock_length : (fixedBlock m offset).length = m.erasesize := by
  simp only [fixedBlock, lenField, crc32Field, flagVersionField] at *
  rw [length_patch, length_patch, hlength]
  · rw [leBytes_length]
    omega
  · rw [length_patch, leBytes_length]
    · omega
    · rw [leBytes_length]
      omega

theorem getElem?_fixedBlock {i : ℕ}
    (hi : i < restOf m offset + lenField ∨ restOf m offset + flagVersionField ≤ i) :
    (fixedBlock m offset)[i]? = (blockOf m m.contents offset)[i]? := by
  simp only [fixedBlock, lenField, crc32Field, flagVersionField] at *
  have hlen : restOf m offset + 4 + (leBytes 4 (m.erasesize - restOf m offset)).length ≤
      (blockOf m m.contents offset).length := by
    rw [leBytes_length]
    omega
  rw [getElem?_patch, if_neg, getElem?_patch hlen, if_neg]
  · rw [leBytes_length]
    omega
  · rw [leBytes_length]
    omega
  · rw [length_patch hlen, leBytes_length]
    omega

theorem fixedBlock_len : segment (fixedBlock m offset) (restOf m offset + lenField) 4 =
    leBytes 4 (m.erasesize - restOf m offset) := by
  simp only [fixedBlock, lenField, crc32Field, flagVersionField] at *
  have hlen : restOf m offset + 4 + (leBytes 4 (m.erasesize - restOf m offset)).length ≤
      (blockOf m m.contents offset).length := by
    rw [leBytes_length]
    omega
  have hsegment := segment_patch hlen
  rw [leBytes_length] at hsegment
  rw [segment_patch_disjoint (by rw [length_patch hlen, leBytes_length]; omega)
    (Or.inl (by omega)), hsegment]

theorem fixedBlock_crc : CrcStored (fixedBlock m offset) (restOf m offset) := by
  have hdrop : (fixedBlock m offset).drop (restOf m offset + flagVersionField) =
      (blockOf m m.contents offset).drop (restOf m offset + flagVersionField) := by
    apply List.ext_getElem?
    intro i
    rw [List.getElem?_drop, List.getElem?_drop,
      getElem?_fixedBlock hlength hfields (Or.inr (by omega))]
  unfold CrcStored
  rw [hdrop]
  simp only [fixedBlock, lenField, crc32Field, flagVersionField] at *
  have hsegment := @segment_patch _ (patch (blockOf m m.contents offset) (restOf m offset + 4)
      (leBytes 4 (m.erasesize - restOf m offset)))
    (leBytes 4 (crc32 ((blockOf m m.contents offset).drop (restOf m offset + 12))))
    (restOf m offset + 8) (by
      rw [length_patch (by rw [leBytes_length]; omega), leBytes_length]
      omega)
  rwa [leBytes_length] at hsegment

end

/-- A block that is not fixed yet is left as it should be when its header lies in it. -/
theorem rewritten_fixed (hblock : blockOffset m offset + m.erasesize ≤ m.contents.length)
    (hfields : restOf m offset + flagVersionField ≤ m.erasesize) {erases : Bool} {written : ℕ}
    {contents : List Byte}
    (h : rewriteBlock m offset erases written (fixedBlock m offset) = .ret contents) :
    Fixed m offset contents := by
  have hlength := blockOf_length hblock
  have hfixed := fixedBlock_length hlength hfields
  have hpatch : blockOffset m offset + (fixedBlock m offset).length ≤ m.contents.length := by
    rwa [hfixed]
  have hcontents : contents = patch m.contents (blockOffset m offset) (fixedBlock m offset) := by
    unfold rewriteBlock at h
    split at h
    · split at h
      · injection h with h
        rw [← h, List.take_of_length_le (by omega), patch_patch (by simpa using hblock)
          (by simpa using hfixed)]
      · cases h
    · cases h
  have hsegment := segment_patch hpatch
  rw [hfixed, ← hcontents] at hsegment
  have hsum := blockOffset_add m offset
  have hoff := hfields
  unfold flagVersionField at hoff
  refine ⟨?_, ?_, ?_⟩
  · unfold blockOf
    rw [hsegment, fixedBlock_len hlength hfields]
  · unfold blockOf
    rw [hsegment]
    exact fixedBlock_crc hlength hfields
  · intro i hi
    rw [hcontents, getElem?_patch hpatch]
    split
    · next hin =>
      unfold lenField flagVersionField at hi
      rw [getElem?_fixedBlock hlength hfields (by unfold lenField flagVersionField; omega),
        blockOf, getElem?_segment, if_pos (by omega)]
      congr 1
      omega
    · rfl

/-- A header that ends behind the block is never fixed. -/
theorem not_fixesRight_of_lt (h : MagicAt m offset)
    (hfields : m.erasesize < restOf m offset + flagVersionField) (erases : Bool) (written : ℕ) :
    ¬FixesRight m offset erases written := by
  rintro ⟨outcome, hfix, hright⟩
  have hlength := blockOf_length h.block
  unfold flagVersionField at hfields
  unfold mtdFixtrx at hfix
  rw [if_neg (by have := h.block; omega)] at hfix
  simp only [h.magic, Option.bind_eq_bind, Option.bind_some, ne_eq, not_true, if_false] at hfix
  by_cases hlen : restOf m offset + lenField + 4 ≤ m.erasesize
  · rw [load_of_le (by omega), Option.bind_some] at hfix
    split at hfix
    · injection hfix with hfix
      have hcrc := (hright m.contents hfix.symm).crc
      have hcut := congrArg List.length hcrc
      rw [Lib.segment, leBytes_length, List.length_take, List.length_drop, hlength] at hcut
      unfold crc32Field at hcut
      omega
    · rw [store_of_le (by omega), Option.bind_some] at hfix
      obtain ⟨crc, _, hfix⟩ := Option.bind_eq_some_iff.mp hfix
      rw [store, if_neg, Option.bind_none] at hfix
      · cases hfix
      · rw [length_patch (by rw [leBytes_length]; omega)]
        unfold crc32Field
        omega
  · rw [load_of_lt (by omega)] at hfix
    cases hfix

theorem fixesRight_iff (h : MagicAt m offset) (erases : Bool) (written : ℕ) :
    FixesRight m offset erases written ↔ BlockFixable m offset := by
  by_cases hfields : restOf m offset + flagVersionField ≤ m.erasesize
  swap
  · exact iff_of_false (not_fixesRight_of_lt h (by omega) erases written) fun hfix =>
      hfields hfix.1
  have hfix := mtdFixtrx_inside h hfields erases written
  have hlength := blockOf_length h.block
  by_cases hlen : field (blockOf m m.contents offset) (restOf m offset + lenField) 4 =
      m.erasesize - restOf m offset
  · rw [if_pos hlen] at hfix
    constructor
    · rintro ⟨outcome, hrun, hright⟩
      injection hfix.symm.trans hrun with houtcome
      exact ⟨hfields, fun _ => (hright _ houtcome.symm).crc⟩
    · rintro ⟨_, hcrc⟩
      refine ⟨_, hfix, fun contents houtcome => ?_⟩
      injection houtcome with hcontents
      subst hcontents
      have hsegment : (segment (blockOf m m.contents offset) (restOf m offset + lenField) 4).length =
          4 := by
        unfold flagVersionField at hfields
        apply length_segment
        unfold lenField
        omega
      refine ⟨?_, hcrc hlen, fun _ _ => rfl⟩
      have hbytes := leBytes_leValue
        (segment (blockOf m m.contents offset) (restOf m offset + lenField) 4)
      rw [hsegment] at hbytes
      rw [← hlen]
      exact hbytes.symm
  · rw [if_neg hlen] at hfix
    refine iff_of_true ⟨_, hfix, fun contents houtcome => ?_⟩ ⟨hfields, fun h => absurd h hlen⟩
    exact rewritten_fixed h.block hfields houtcome

end

section

variable {device : List Byte}

theorem field_lt (b : List Byte) (off : ℕ) : field b off 4 < 2 ^ 32 := by
  have hlt := leValue_lt (segment b off 4)
  have hlen : (segment b off 4).length ≤ 4 := List.length_take_le 4 _
  exact lt_of_lt_of_le hlt (Nat.pow_le_pow_right (by omega) (by omega))

/-- What the length of the header covers, modulo 2 ^ 32 and as an int. -/
theorem covered_sub {len : ℕ} (hlen : len < 2 ^ 32) :
    covered (len - flagVersionField) =
      if flagVersionField ≤ len ∧ len < 2 ^ 31 + flagVersionField then len - flagVersionField else 0 := by
  unfold flagVersionField covered
  rw [Int.bmod_def]
  split <;> split <;> omega

theorem fixupInside_of_magic (h : load device 0 4 = some trxMagic) :
    FixupInside device ↔ LengthInside device := by
  have hfour : 4 ≤ device.length := by
    by_contra hlt
    rw [load_of_lt (by omega)] at h
    cases h
  have hrun : trxFixup true device = (do
      let len ← load device lenField 4
      let crc ← crc32buf device flagVersionField (len - flagVersionField)
      let device ← store device crc32Field crc
      return (0, device)) := by
    unfold trxFixup
    rw [if_neg (by omega), if_neg (by decide), h]
    rfl
  have hlen := field_lt device lenField
  unfold FixupInside LengthInside
  rw [hrun]
  constructor
  · rintro ⟨result, hresult⟩
    obtain ⟨len, hload, hresult⟩ := Option.bind_eq_some_iff.mp hresult
    obtain ⟨crc, hcrc, hresult⟩ := Option.bind_eq_some_iff.mp hresult
    obtain ⟨device', hstore, _⟩ := Option.bind_eq_some_iff.mp hresult
    have hfields : flagVersionField ≤ device.length := (Option.ite_none_right_eq_some.mp hstore).1
    have hfield : field device lenField 4 = len :=
      Option.some_inj.mp (Option.ite_none_right_eq_some.mp hload).2
    have hroom := (Option.ite_none_right_eq_some.mp hcrc).1
    rw [← hfield, covered_sub hlen] at hroom
    refine ⟨hfields, ?_⟩
    split at hroom <;> omega
  · rintro ⟨hfields, hroom⟩
    have hfield : load device lenField 4 = some (field device lenField 4) :=
      load_of_le (le_trans (by decide) hfields)
    have hcrc : crc32buf device flagVersionField (field device lenField 4 - flagVersionField) =
        some (crc32 (segment device flagVersionField
          (covered (field device lenField 4 - flagVersionField)))) := by
      unfold crc32buf
      rw [if_pos]
      rw [covered_sub hlen]
      split <;> omega
    have hstore := @store_of_le device crc32Field hfields
    rw [hfield, Option.bind_eq_bind, Option.bind_some, hcrc, Option.bind_eq_bind, Option.bind_some,
      hstore]
    exact ⟨_, rfl⟩

end

/-- A header with the length and nothing else set, in an erase block of its own. -/
def bareBlock (len : Byte) : Mtd where
  contents := [0x48, 0x44, 0x52, 0x30, len, 0, 0, 0, 0, 0, 0, 0, 0, 0, 0, 0]
  erasesize := 16
  pos := by decide
  int := by decide

end Iot7688.Trx
