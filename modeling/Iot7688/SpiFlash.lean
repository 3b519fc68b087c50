import Iot7688.NorChip

/-!
The SPI flash drivers above the chip: spi_rt6855A_flash.c, which this board
builds, and spi_flash.c. They differ in how many bytes one program or read
command carries. Unsigned int arithmetic on addresses is explicit; malloc
outcomes come from a list, the later ones succeed. The passes of the
read-modify-write loop fuse into one copy.
-/
namespace Iot7688.SpiFlash

open Lib NorChip

def u32 (n : ℕ) : ℕ := n % 2 ^ 32

theorem u32_of_lt {n : ℕ} (h : n < 2 ^ 32) : u32 n = n := Nat.mod_eq_of_lt h

/-- CFG_BOOTLOADER_SIZE + CFG_CONFIG_SIZE + CFG_FACTORY_SIZE. -/
def cfgBootloaderSize : ℕ := 0x30000
def cfgConfigSize : ℕ := 0x10000
def cfgFactorySize : ℕ := 0x10000

/-- A row of the chip table. Sectors are whole pages and powers of two, the
size is a C int, and a part with 3-byte addresses fits in them. -/
structure ChipInfo where
  name : String
  sectorSize : ℕ
  nSectors : ℕ
  addr4b : Bool
  sector_pow : ∃ k, 8 ≤ k ∧ sectorSize = 2 ^ k := by exact ⟨16, by decide, by decide⟩
  size_lt : sectorSize * nSectors < 2 ^ 31 := by decide
  size_3byte : addr4b = false → sectorSize * nSectors ≤ 2 ^ 24 := by decide

def chipsData : List ChipInfo := [
  { name := "AT25DF321", sectorSize := 64 * 1024, nSectors := 64, addr4b := false },
  { name := "AT26DF161", sectorSize := 64 * 1024, nSectors := 32, addr4b := false },
  { name := "FL016AIF", sectorSize := 64 * 1024, nSectors := 32, addr4b := false },
  { name := "FL064AIF", sectorSize := 64 * 1024, nSectors := 128, addr4b := false },
  { name := "MX25L1605D", sectorSize := 64 * 1024, nSectors := 32, addr4b := false },
  { name := "MX25L3205D", sectorSize := 64 * 1024, nSectors := 64, addr4b := false },
  { name := "MX25L6405D", sectorSize := 64 * 1024, nSectors := 128, addr4b := false },
  { name := "MX25L12805D", sectorSize := 64 * 1024, nSectors := 256, addr4b := false },
  { name := "MX25L25635E", sectorSize := 64 * 1024, nSectors := 512, addr4b := true },
  { name := "MX25L51245G", sectorSize := 64 * 1024, nSectors := 1024, addr4b := true },
  { name := "S25FL256S", sectorSize := 64 * 1024, nSectors := 512, addr4b := true },
  { name := "S25FL128P", sectorSize := 64 * 1024, nSectors := 256, addr4b := false },
  { name := "S25FL129P", sectorSize := 64 * 1024, nSectors := 256, addr4b := false },
  { name := "S25FL164K", sectorSize := 64 * 1024, nSectors := 128, addr4b := false },
  { name := "S25FL132K", sectorSize := 64 * 1024, nSectors := 64, addr4b := false },
  { name := "S25FL032P", sectorSize := 64 * 1024, nSectors := 64, addr4b := false },
  { name := "S25FL064P", sectorSize := 64 * 1024, nSectors := 128, addr4b := false },
  { name := "S25FL116K", sectorSize := 64 * 1024, nSectors := 32, addr4b := false },
  { name := "F25L64QA", sectorSize := 64 * 1024, nSectors := 128, addr4b := false },
  { name := "F25L32QA", sectorSize := 64 * 1024, nSectors := 64, addr4b := false },
  { name := "EN25F16", sectorSize := 64 * 1024, nSectors := 32, addr4b := false },
  { name := "EN25Q32B", sectorSize := 64 * 1024, nSectors := 64, addr4b := false },
  { name := "EN25F32", sectorSize := 64 * 1024, nSectors := 64, addr4b := false },
  { name := "EN25F64", sectorSize := 64 * 1024, nSectors := 128, addr4b := false },
  { name := "EN25Q64", sectorSize := 64 * 1024, nSectors := 128, addr4b := false },
  { name := "W25Q32BV", sectorSize := 64 * 1024, nSectors := 64, addr4b := false },
  { name := "W25X32VS", sectorSize := 64 * 1024, nSectors := 64, addr4b := false },
  { name := "W25Q64BV", sectorSize := 64 * 1024, nSectors := 128, addr4b := false },
  { name := "W25Q128BV", sectorSize := 64 * 1024, nSectors := 256, addr4b := false },
  { name := "W25Q256FV", sectorSize := 64 * 1024, nSectors := 512, addr4b := true },
  { name := "N25Q032A13ESE40F", sectorSize := 64 * 1024, nSectors := 64, addr4b := false },
  { name := "N25Q064A13ESE40F", sectorSize := 64 * 1024, nSectors := 128, addr4b := false },
  { name := "N25Q128A13ESE40F", sectorSize := 64 * 1024, nSectors := 256, addr4b := false },
  { name := "N25Q256A", sectorSize := 64 * 1024, nSectors := 512, addr4b := true },
  { name := "MT25QL512AB", sectorSize := 64 * 1024, nSectors := 1024, addr4b := true },
  { name := "GD25Q32B", sectorSize := 64 * 1024, nSectors := 64, addr4b := false },
  { name := "GD25Q64B", sectorSize := 64 * 1024, nSectors := 128, addr4b := false },
  { name := "GD25Q128C", sectorSize := 64 * 1024, nSectors := 256, addr4b := false }]

namespace ChipInfo

def size (c : ChipInfo) : ℕ := c.sectorSize * c.nSectors

theorem sectorSize_pos (c : ChipInfo) : 0 < c.sectorSize := by
  obtain ⟨k, _, heq⟩ := c.sector_pow
  rw [heq]
  exact Nat.two_pow_pos k

end ChipInfo

/-- How many data bytes one read or program command carries, and whether the
driver reads the flash back (RALINK_SPI_UPGRADE_CHECK). -/
structure Controller where
  rdMore : ℕ
  wrMore : ℕ
  rdMore_pos : 0 < rdMore
  wrMore_pos : 0 < wrMore
  upgradeCheck : Bool

/-- spi_rt6855A_flash.c in BBU_MODE with MORE_BUF_MODE. -/
def rt6855A : Controller := ⟨32, 32, by decide, by decide, true⟩

/-- spi_flash.c sends a page chunk in one command and reads any int length
in one. -/
def spiFlash : Controller := ⟨2 ^ 31, pageSize, by decide, by decide, true⟩

structure Flash where
  nor : Nor
  heap : List Bool

/-- The address as the chip takes it: 3 or 4 bytes go over the bus, and the bits above
the size are ignored. -/
def busAddr (c : ChipInfo) (a : ℕ) : ℕ := (if c.addr4b then u32 a else a % 2 ^ 24) % c.size

def raspiWaitReady (d : Nor) : ℤ := if d.readStatus &&& srWip = 0 then 0 else -1

def raspiUnprotect (d : Nor) : Nor :=
  if d.readStatus &&& srBp ≠ 0 then d.writeStatus 0 else d

def raspiEraseSector (c : ChipInfo) (d : Nor) (offset : ℕ) : ℤ × Nor :=
  if raspiWaitReady d ≠ 0 then (-1, d)
  else
    let d := raspiUnprotect d.writeEnable
    let d := if c.addr4b then d.writeEnable else d
    let d := d.sectorErase c.sectorSize (busAddr c offset)
    (0, d.writeDisable)

def raspiErase (c : ChipInfo) (d : Nor) (offs len : ℕ) : ℤ × Nor :=
  if len = 0 then (0, d)
  else
    let r := raspiEraseSector c d offs
    if r.1 ≠ 0 then (-1, r.2)
    else raspiErase c r.2 (u32 (offs + c.sectorSize)) (len - c.sectorSize)
termination_by len
decreasing_by
  have := c.sectorSize_pos
  omega

/-- The do-while loop of a read: pieces of `rdMore` bytes, then the rest. -/
def readPieces (k : Controller) (c : ChipInfo) (d : Nor) (src rdlen len : ℕ) (buf : Mem) : Mem :=
  if len - rdlen ≤ k.rdMore then buf.copy rdlen (len - rdlen) (d.mem.shift (busAddr c src))
  else
    readPieces k c d (u32 (src + k.rdMore)) (rdlen + k.rdMore) len
      (buf.copy rdlen k.rdMore (d.mem.shift (busAddr c src)))
termination_by len - rdlen
decreasing_by
  have := k.rdMore_pos
  omega

/-- Result and buffer of a read; the result is the length read. -/
def raspiRead (k : Controller) (c : ChipInfo) (d : Nor) (buf : Mem) (src len : ℕ) : ℤ × Mem :=
  if len = 0 then (0, buf)
  else if raspiWaitReady d ≠ 0 then (-1, buf)
  else (len, readPieces k c d src 0 len buf)

/-- The commands for one page chunk. Between two of them the latch is
dropped, the chip polled and the latch set again. -/
def programPieces (k : Controller) (c : ChipInfo) (d : Nor) (wrto wrlen : ℕ) (wrbuf : Mem)
    (retlen : ℕ) : Nor × ℕ :=
  if wrlen ≤ k.wrMore then (d.pageProgram (busAddr c wrto) wrlen wrbuf, retlen + wrlen)
  else
    let d := d.pageProgram (busAddr c wrto) k.wrMore wrbuf
    let d := d.writeDisable.writeEnable
    programPieces k c d (u32 (wrto + k.wrMore)) (wrlen - k.wrMore) (wrbuf.shift k.wrMore)
      (retlen + k.wrMore)
termination_by wrlen
decreasing_by
  have := k.wrMore_pos
  omega

def writeLoop (k : Controller) (c : ChipInfo) (d : Nor) (buf : Mem) (dst len pageOffset : ℕ)
    (_hpage : pageOffset < pageSize) (retlen : ℕ) : Nor × ℕ :=
  if len = 0 then (d, retlen)
  else
    let size := min len (pageSize - pageOffset)
    let d := raspiUnprotect d.writeEnable
    let r := programPieces k c d dst size buf retlen
    writeLoop k c r.1 (buf.shift size) (u32 (dst + size)) (len - size) 0 (by decide) r.2
termination_by len
decreasing_by omega

def raspiWrite (k : Controller) (c : ChipInfo) (d : Nor) (buf : Mem) (dst len : ℕ) : ℤ × Nor :=
  if len = 0 then (0, d)
  else if u32 (dst + len) > c.size then (-1, d)
  else if raspiWaitReady d ≠ 0 then (-1, d)
  else
    let r := writeLoop k c d buf dst len (dst % pageSize) (Nat.mod_lt _ (by decide)) 0
    (r.2, r.1.writeDisable)

def malloc (f : Flash) : Bool × Flash :=
  match f.heap with
  | [] => (true, f)
  | b :: rest => (b, { f with heap := rest })

/-- The contents of fresh memory; a block is read in full before its use. -/
def scratch : Mem := fun _ => 0

/-- `offs & blockmask`. -/
def inBlock (c : ChipInfo) (offs : ℕ) : ℕ := offs &&& (c.sectorSize - 1)

/-- memcmp of n bytes, as an equality test. -/
def sameBytes (n : ℕ) (a b : Mem) : Bool := (List.range n).all (fun i => a i == b i)

/-- One pass of the partial-sector branch: read the sector, patch it, erase,
write and compare. -/
def eraseWritePiece (k : Controller) (c : ChipInfo) (f : Flash) (buf : Mem) (offs pieceSize : ℕ) :
    ℤ × Flash :=
  let (ok, f) := malloc f
  if !ok then (-1, f)
  else
    let (ok, f) := malloc f
    if !ok then (-1, f)
    else
      let blockaddr := offs - inBlock c offs
      let rd := raspiRead k c f.nor scratch blockaddr c.sectorSize
      if rd.1 ≠ c.sectorSize then (-2, f)
      else
        let block := rd.2.copy (inBlock c offs) pieceSize buf
        let er := raspiErase c f.nor blockaddr c.sectorSize
        if er.1 ≠ 0 then (-3, { f with nor := er.2 })
        else
          let wr := raspiWrite k c er.2 block blockaddr c.sectorSize
          if wr.1 ≠ c.sectorSize then (-4, { f with nor := wr.2 })
          else if k.upgradeCheck then
            let temp := raspiRead k c wr.2 scratch blockaddr c.sectorSize
            if temp.1 ≠ c.sectorSize then (-2, { f with nor := wr.2 })
            else if sameBytes c.sectorSize block temp.2 then (0, { f with nor := wr.2 })
            else (-2, { f with nor := wr.2 })
          else (0, { f with nor := wr.2 })

/-- The read-back of the aligned branch, one sector at a time. -/
def checkBlocks (k : Controller) (c : ChipInfo) (d : Nor) (buf : Mem) (offs : ℕ) : ℕ → Bool
  | 0 => true
  | n + 1 =>
      let temp := raspiRead k c d scratch offs c.sectorSize
      if temp.1 ≠ c.sectorSize then false
      else if sameBytes c.sectorSize buf temp.2 then
        checkBlocks k c d (buf.shift c.sectorSize) (u32 (offs + c.sectorSize)) n
      else false

/-- One pass of the aligned branch. -/
def eraseWriteAligned (k : Controller) (c : ChipInfo) (f : Flash) (buf : Mem)
    (offs alignedSize : ℕ) : ℤ × Flash :=
  let (ok, f) := malloc f
  if !ok then (-1, f)
  else
    let er := raspiErase c f.nor offs alignedSize
    if er.1 ≠ 0 then (-1, { f with nor := er.2 })
    else
      let wr := raspiWrite k c er.2 buf offs alignedSize
      if wr.1 ≠ alignedSize then (-1, { f with nor := wr.2 })
      else if k.upgradeCheck && !checkBlocks k c wr.2 buf offs (alignedSize / c.sectorSize) then
        (-2, { f with nor := wr.2 })
      else (0, { f with nor := wr.2 })

theorem inBlock_eq (c : ChipInfo) (offs : ℕ) : inBlock c offs = offs % c.sectorSize := by
  obtain ⟨k, _, heq⟩ := c.sector_pow
  rw [inBlock, heq, Nat.and_two_pow_sub_one_eq_mod]

theorem inBlock_lt (c : ChipInfo) (offs : ℕ) : inBlock c offs < c.sectorSize := by
  rw [inBlock_eq]
  exact Nat.mod_lt _ c.sectorSize_pos

def eraseWriteLoop (k : Controller) (c : ChipInfo) (f : Flash) (buf : Mem) (offs count : ℕ) :
    ℤ × Flash :=
  if count = 0 then (0, f)
  else if inBlock c offs ≠ 0 ∨ count < c.sectorSize then
    let pieceSize := min count (c.sectorSize - inBlock c offs)
    let r := eraseWritePiece k c f buf offs pieceSize
    if r.1 ≠ 0 then r
    else
      eraseWriteLoop k c r.2 (buf.shift pieceSize) (u32 (offs + pieceSize)) (count - pieceSize)
  else
    let alignedSize := count - inBlock c count
    let r := eraseWriteAligned k c f buf offs alignedSize
    if r.1 ≠ 0 then r
    else
      eraseWriteLoop k c r.2 (buf.shift alignedSize) (u32 (offs + alignedSize))
        (count - alignedSize)
termination_by count
decreasing_by
  · have := inBlock_lt c offs
    omega
  · have := inBlock_lt c count
    omega

/-- The size test compares unsigned longs, so a negative count fails it. -/
def raspiEraseWrite (k : Controller) (c : ChipInfo) (f : Flash) (buf : Mem) (offs : ℕ)
    (count : ℤ) : ℤ × Flash :=
  if (count % 2 ^ 32).toNat >
      (((c.size : ℤ) - (cfgBootloaderSize + cfgConfigSize + cfgFactorySize)) % 2 ^ 32).toNat then
    (-1, f)
  else eraseWriteLoop k c f buf offs count.toNat

theorem ChipInfo.size_lt_u32 (c : ChipInfo) : c.size < 2 ^ 32 :=
  lt_trans c.size_lt (by decide)

theorem busAddr_of_lt (c : ChipInfo) {a : ℕ} (h : a < c.size) : busAddr c a = a := by
  unfold busAddr
  cases hb : c.addr4b with
  | true =>
    rw [if_pos rfl, u32_of_lt (lt_trans h c.size_lt_u32)]
    exact Nat.mod_eq_of_lt h
  | false =>
    have hsize : c.size ≤ 2 ^ 24 := c.size_3byte hb
    rw [if_neg Bool.false_ne_true, Nat.mod_eq_of_lt (h.trans_le hsize)]
    exact Nat.mod_eq_of_lt h

/-- The sector of an address of the chip lies inside the chip. -/
theorem sector_end_le (c : ChipInfo) {a : ℕ} (h : a < c.size) :
    a - inBlock c a + c.sectorSize ≤ c.size := by
  have hpos := c.sectorSize_pos
  have hdiv : a / c.sectorSize < c.nSectors := Nat.div_lt_of_lt_mul h
  have hmul : (a / c.sectorSize + 1) * c.sectorSize ≤ c.nSectors * c.sectorSize :=
    Nat.mul_le_mul_right _ hdiv
  have hsplit := Nat.div_add_mod' a c.sectorSize
  have hsize : c.nSectors * c.sectorSize = c.size := Nat.mul_comm ..
  rw [inBlock_eq]
  rw [Nat.add_mul, Nat.one_mul] at hmul
  omega

theorem dvd_blockaddr (c : ChipInfo) (a : ℕ) : c.sectorSize ∣ a - inBlock c a := by
  rw [inBlock_eq]
  exact Nat.dvd_sub_mod a

theorem or_and_byte (a b m : Byte) : (a ||| b) &&& m = (a &&& m) ||| (b &&& m) := by
  apply UInt8.toBitVec_inj.mp
  simp only [UInt8.toBitVec_and, UInt8.toBitVec_or]
  ext i
  simp only [BitVec.getElem_and, BitVec.getElem_or, Bool.and_or_distrib_right]

@[simp] theorem raspiWaitReady_eq (d : Nor) : raspiWaitReady d = 0 := by
  have h : d.readStatus &&& srWip = 0 := by
    have hbp : d.bp &&& srBp &&& srWip = 0 := by
      rw [UInt8.and_assoc, show srBp &&& srWip = 0 from rfl, UInt8.and_zero]
    unfold Nor.readStatus
    rw [or_and_byte, hbp]
    cases d.wel <;> rfl
  rw [raspiWaitReady, if_pos h]

theorem raspiUnprotect_of_unprotected (d : Nor) (hu : d.Unprotected) : raspiUnprotect d = d := by
  have h : d.readStatus &&& srBp = 0 := by
    have hbp : d.bp &&& srBp = 0 := hu
    unfold Nor.readStatus
    rw [hbp]
    cases d.wel <;> decide
  rw [raspiUnprotect, if_neg (by simp [h])]

theorem raspiEraseSector_mem (c : ChipInfo) (d : Nor) (offs : ℕ) (hu : d.Unprotected) :
    (raspiEraseSector c d offs).1 = 0 ∧
      (raspiEraseSector c d offs).2.Unprotected ∧
      (raspiEraseSector c d offs).2.mem =
        d.mem.fill (busAddr c offs / c.sectorSize * c.sectorSize) c.sectorSize 0xff := by
  have hun : raspiUnprotect d.writeEnable = d.writeEnable :=
    raspiUnprotect_of_unprotected _ hu
  have hen : (if c.addr4b then d.writeEnable.writeEnable else d.writeEnable) =
      d.writeEnable := by
    split <;> rfl
  simp only [raspiEraseSector, raspiWaitReady_eq, ne_eq, not_true_eq_false, if_false, hun, hen]
  refine ⟨trivial, ?_, ?_⟩
  · exact Nor.unprotected_sectorErase _ _ _ hu
  · have hen : d.writeEnable.Unprotected := (Nor.unprotected_writeEnable d).mpr hu
    rw [Nor.writeDisable_mem, Nor.sectorErase_mem d.writeEnable _ _ hen rfl, Nor.writeEnable_mem]

theorem raspiEraseSector_spec (c : ChipInfo) (d : Nor) (offs : ℕ) (hu : d.Unprotected)
    (hoffs : offs < c.size) (hal : c.sectorSize ∣ offs) :
    (raspiEraseSector c d offs).1 = 0 ∧
      (raspiEraseSector c d offs).2.Unprotected ∧
      (raspiEraseSector c d offs).2.mem = d.mem.fill offs c.sectorSize 0xff := by
  have hstart : offs / c.sectorSize * c.sectorSize = offs := Nat.div_mul_cancel hal
  have h := raspiEraseSector_mem c d offs hu
  rwa [busAddr_of_lt c hoffs, hstart] at h

/-- Erasing whole sectors from a sector boundary is a fill. -/
theorem raspiErase_spec (c : ChipInfo) (n : ℕ) (d : Nor) (offs : ℕ) (hu : d.Unprotected)
    (hal : c.sectorSize ∣ offs) (hfit : offs + n * c.sectorSize ≤ c.size) :
    (raspiErase c d offs (n * c.sectorSize)).1 = 0 ∧
      (raspiErase c d offs (n * c.sectorSize)).2.Unprotected ∧
      (raspiErase c d offs (n * c.sectorSize)).2.mem =
        d.mem.fill offs (n * c.sectorSize) 0xff := by
  have hpos := c.sectorSize_pos
  induction n generalizing d offs with
  | zero =>
    rw [Nat.zero_mul, raspiErase, if_pos rfl]
    exact ⟨rfl, hu, (Mem.fill_zero ..).symm⟩
  | succ n ih =>
    rw [Nat.add_mul, Nat.one_mul] at hfit ⊢
    obtain ⟨hret, hu', hmem⟩ := raspiEraseSector_spec c d offs hu (by omega) hal
    have hlen : n * c.sectorSize + c.sectorSize - c.sectorSize = n * c.sectorSize := by omega
    have hnext : u32 (offs + c.sectorSize) = offs + c.sectorSize :=
      u32_of_lt (lt_of_le_of_lt (by omega) c.size_lt_u32)
    rw [raspiErase, if_neg (by omega), if_neg (by simp [hret]), hlen, hnext]
    obtain ⟨hr, hun, hm⟩ := ih (raspiEraseSector c d offs).2 (offs + c.sectorSize) hu'
      (Nat.dvd_add hal dvd_rfl) (by omega)
    refine ⟨hr, hun, ?_⟩
    rw [hm, hmem, Mem.fill_append, Nat.add_comm]

/-- The commands of a page chunk program the chunk, whatever their size. -/
theorem programPieces_spec (k : Controller) (c : ChipInfo) (d : Nor) (dst len : ℕ) (buf : Mem)
    (retlen : ℕ) (hu : d.Unprotected) (hw : d.wel = true) (hlen : 0 < len)
    (hpage : dst % pageSize + len ≤ pageSize) (hfit : dst + len ≤ c.size) :
    (programPieces k c d dst len buf retlen).1.Unprotected ∧
      (programPieces k c d dst len buf retlen).1.mem = d.mem.program dst len buf ∧
      (programPieces k c d dst len buf retlen).2 = retlen + len := by
  have hmore := k.wrMore_pos
  have hsize := c.size_lt_u32
  induction len using Nat.strong_induction_on generalizing d dst buf retlen with
  | h len ih =>
    have haddr : busAddr c dst = dst := busAddr_of_lt c (by omega)
    rw [programPieces, haddr]
    by_cases hle : len ≤ k.wrMore
    · rw [if_pos hle]
      refine ⟨Nor.unprotected_pageProgram _ _ _ _ hu, ?_, rfl⟩
      exact Nor.pageProgram_mem d dst len buf hu hw (by omega)
    · rw [if_neg hle, u32_of_lt (by omega)]
      have hfirst := Nor.pageProgram_mem d dst k.wrMore buf hu hw (by unfold pageSize at *; omega)
      obtain ⟨hun, hm, hr⟩ := ih (len - k.wrMore) (by omega)
        (d.pageProgram dst k.wrMore buf).writeDisable.writeEnable (dst + k.wrMore)
        (buf.shift k.wrMore) (retlen + k.wrMore) (Nor.unprotected_pageProgram _ _ _ _ hu) rfl
        (by omega) (by unfold pageSize at *; omega) (by omega)
      refine ⟨hun, ?_, hr.trans (by omega)⟩
      rw [hm, Nor.writeEnable_mem, Nor.writeDisable_mem, hfirst, Mem.program_append,
        show k.wrMore + (len - k.wrMore) = len by omega]

/-- The page loop. Only the first chunk may start inside a page. -/
theorem writeLoop_spec (k : Controller) (c : ChipInfo) (d : Nor) (buf : Mem)
    (dst len pageOffset : ℕ) (hpage : pageOffset < pageSize) (retlen : ℕ) (hu : d.Unprotected)
    (hoff : len = 0 ∨ pageOffset = dst % pageSize) (hfit : dst + len ≤ c.size) :
    (writeLoop k c d buf dst len pageOffset hpage retlen).1.Unprotected ∧
      (writeLoop k c d buf dst len pageOffset hpage retlen).1.mem = d.mem.program dst len buf ∧
      (writeLoop k c d buf dst len pageOffset hpage retlen).2 = retlen + len := by
  have hsize := c.size_lt_u32
  induction len using Nat.strong_induction_on generalizing d buf dst pageOffset retlen with
  | h len ih =>
    rw [writeLoop]
    by_cases hlen : len = 0
    · subst hlen
      rw [if_pos rfl]
      exact ⟨hu, (Mem.program_zero ..).symm, rfl⟩
    · have hoff' : pageOffset = dst % pageSize := hoff.resolve_left hlen
      have hchunk : 0 < min len (pageSize - pageOffset) := by omega
      simp only [if_neg hlen]
      rw [raspiUnprotect_of_unprotected _ ((Nor.unprotected_writeEnable d).mpr hu)]
      obtain ⟨hun, hm, hr⟩ := programPieces_spec k c d.writeEnable dst
        (min len (pageSize - pageOffset)) buf retlen hu rfl hchunk (by omega) (by omega)
      rw [u32_of_lt (by omega)]
      obtain ⟨hun', hm', hr'⟩ := ih (len - min len (pageSize - pageOffset)) (by omega)
        (programPieces k c d.writeEnable dst (min len (pageSize - pageOffset)) buf retlen).1
        (buf.shift (min len (pageSize - pageOffset)))
        (dst + min len (pageSize - pageOffset)) 0 (by decide)
        (programPieces k c d.writeEnable dst (min len (pageSize - pageOffset)) buf retlen).2
        hun (by unfold pageSize at *; omega) (by omega)
      refine ⟨hun', ?_, by omega⟩
      rw [hm', hm, Nor.writeEnable_mem, Mem.program_append,
        show min len (pageSize - pageOffset) + (len - min len (pageSize - pageOffset)) = len by
          omega]

theorem raspiWrite_spec (k : Controller) (c : ChipInfo) (d : Nor) (buf : Mem) (dst len : ℕ)
    (hu : d.Unprotected) (hfit : dst + len ≤ c.size) :
    (raspiWrite k c d buf dst len).1 = len ∧
      (raspiWrite k c d buf dst len).2.Unprotected ∧
      (raspiWrite k c d buf dst len).2.mem = d.mem.program dst len buf := by
  have hsize := c.size_lt_u32
  unfold raspiWrite
  by_cases hlen : len = 0
  · subst hlen
    rw [if_pos rfl]
    exact ⟨rfl, hu, (Mem.program_zero ..).symm⟩
  · rw [if_neg hlen, u32_of_lt (by omega), if_neg (by omega), if_neg (by simp)]
    obtain ⟨hun, hm, hr⟩ := writeLoop_spec k c d buf dst len (dst % pageSize)
      (Nat.mod_lt _ (by decide)) 0 hu (Or.inr rfl) hfit
    refine ⟨by simp only [hr, Nat.zero_add], hun, ?_⟩
    simpa only [Nor.writeDisable_mem] using hm

theorem readPieces_spec (k : Controller) (c : ChipInfo) (d : Nor) (src rdlen len : ℕ) (buf : Mem)
    (hlt : rdlen < len) (hfit : src + rdlen + (len - rdlen) ≤ c.size + rdlen) :
    readPieces k c d src rdlen len buf = buf.copy rdlen (len - rdlen) (d.mem.shift src) := by
  have hmore := k.rdMore_pos
  have hsize := c.size_lt_u32
  have haddr : busAddr c src = src := busAddr_of_lt c (by omega)
  induction hn : len - rdlen using Nat.strong_induction_on generalizing src rdlen buf with
  | h n ih =>
    subst hn
    rw [readPieces, haddr]
    by_cases hle : len - rdlen ≤ k.rdMore
    · rw [if_pos hle]
    · rw [if_neg hle, u32_of_lt (by omega),
        ih (len - (rdlen + k.rdMore)) (by omega) (src + k.rdMore) (rdlen + k.rdMore) _ (by omega)
          (by omega) (busAddr_of_lt c (by omega)) rfl,
        ← Mem.shift_shift, Mem.copy_append]
      congr 1
      omega

theorem raspiRead_spec (k : Controller) (c : ChipInfo) (d : Nor) (buf : Mem) (src len : ℕ)
    (hfit : src + len ≤ c.size) :
    raspiRead k c d buf src len = ((len : ℤ), buf.copy 0 len (d.mem.shift src)) := by
  unfold raspiRead
  by_cases hlen : len = 0
  · subst hlen
    rw [if_pos rfl, Mem.copy_zero]
    rfl
  · rw [if_neg hlen, if_neg (by simp), readPieces_spec k c d src 0 len buf (by omega) (by omega),
      Nat.sub_zero]

theorem sameBytes_iff (n : ℕ) (a b : Mem) : sameBytes n a b = true ↔ ∀ i, i < n → a i = b i := by
  simp only [sameBytes, List.all_eq_true, List.mem_range, beq_iff_eq]

/-- Erase and write of whole sectors store the buffer. -/
theorem erase_write_spec (k : Controller) (c : ChipInfo) (n : ℕ) (d : Nor) (buf : Mem)
    (offs : ℕ) (hu : d.Unprotected) (hal : c.sectorSize ∣ offs)
    (hfit : offs + n * c.sectorSize ≤ c.size) :
    (raspiErase c d offs (n * c.sectorSize)).1 = 0 ∧
      (raspiWrite k c (raspiErase c d offs (n * c.sectorSize)).2 buf offs
        (n * c.sectorSize)).1 = (n * c.sectorSize : ℕ) ∧
      (raspiWrite k c (raspiErase c d offs (n * c.sectorSize)).2 buf offs
        (n * c.sectorSize)).2.Unprotected ∧
      (raspiWrite k c (raspiErase c d offs (n * c.sectorSize)).2 buf offs
        (n * c.sectorSize)).2.mem = d.mem.copy offs (n * c.sectorSize) buf := by
  obtain ⟨hret, hun, hmem⟩ := raspiErase_spec c n d offs hu hal hfit
  obtain ⟨hw, hun', hmem'⟩ := raspiWrite_spec k c
    (raspiErase c d offs (n * c.sectorSize)).2 buf offs (n * c.sectorSize) hun hfit
  refine ⟨hret, hw, hun', ?_⟩
  rw [hmem', hmem, Mem.fill_program]

/-- The outcome of one pass over `n` bytes at `offs`: it either reports an
error or has copied them, and without failing allocations it succeeds. -/
def PassOutcome (f : Flash) (buf : Mem) (offs n : ℕ) (r : ℤ × Flash) : Prop :=
  (r.1 = 0 → r.2.nor.Unprotected ∧ r.2.nor.mem = f.nor.mem.copy offs n buf) ∧
    (f.heap = [] → r.1 = 0 ∧ r.2.heap = [])

theorem PassOutcome.of_failed {f : Flash} {buf : Mem} {offs n : ℕ} {r : ℤ × Flash}
    (hret : r.1 ≠ 0) (hheap : f.heap ≠ []) : PassOutcome f buf offs n r :=
  ⟨fun h => absurd h hret, fun h => absurd h hheap⟩

theorem malloc_cases (f : Flash) :
    (malloc f).2.nor = f.nor ∧
      ((malloc f).1 = false → f.heap ≠ []) ∧ (f.heap = [] → (malloc f).2.heap = []) := by
  unfold malloc
  cases hh : f.heap with
  | nil => simp [hh]
  | cons b rest => simp

/-- A sector read back after the copy of a block compares equal to it. -/
theorem sameBytes_readback (m buf : Mem) (offs : ℕ) {n len : ℕ} (hn : n ≤ len) :
    sameBytes n buf (scratch.copy 0 n ((m.copy offs len buf).shift offs)) = true := by
  rw [sameBytes_iff]
  intro i hi
  rw [Mem.copy_start _ _ hi, Mem.shift_apply, Mem.copy_inside m buf (lt_of_lt_of_le hi hn)]

theorem eraseWritePiece_spec (k : Controller) (c : ChipInfo) (f : Flash) (buf : Mem)
    (offs pieceSize : ℕ) (hu : f.nor.Unprotected) (hoffs : offs < c.size)
    (hpiece : inBlock c offs + pieceSize ≤ c.sectorSize) :
    PassOutcome f buf offs pieceSize (eraseWritePiece k c f buf offs pieceSize) := by
  obtain ⟨hnor1, hfail1, hheap1⟩ := malloc_cases f
  obtain ⟨hnor2, hfail2, hheap2⟩ := malloc_cases (malloc f).2
  have hfit : offs - inBlock c offs + c.sectorSize ≤ c.size := sector_end_le c hoffs
  have hbase : offs - inBlock c offs + inBlock c offs = offs := by
    have := Nat.mod_le offs c.sectorSize
    rw [inBlock_eq]
    omega
  unfold eraseWritePiece
  cases hok1 : (malloc f).1 with
  | false => exact PassOutcome.of_failed (by simp [hok1]) (hfail1 hok1)
  | true =>
    cases hok2 : (malloc (malloc f).2).1 with
    | false =>
      exact PassOutcome.of_failed (by simp [hok1, hok2]) fun h => hfail2 hok2 (hheap1 h)
    | true =>
      set nor := (malloc (malloc f).2).2.nor with hnor
      have hnorf : nor = f.nor := hnor2.trans hnor1
      set blockaddr := offs - inBlock c offs with hblockaddr
      set block := (scratch.copy 0 c.sectorSize (nor.mem.shift blockaddr)).copy
        (inBlock c offs) pieceSize buf with hblock
      have hone : 1 * c.sectorSize = c.sectorSize := Nat.one_mul _
      obtain ⟨her, hwr, hun, hmem⟩ := erase_write_spec k c 1 nor block blockaddr
        (by rw [hnorf]; exact hu) (dvd_blockaddr c offs) (by rw [hone]; exact hfit)
      rw [hone] at her hwr hun hmem
      have hsame := sameBytes_readback nor.mem block blockaddr (le_refl c.sectorSize)
      rw [← hmem] at hsame
      simp only [hok1, hok2, ← hnor, raspiRead_spec k c _ _ _ _ hfit, ← hblock, her, hwr,
        Bool.not_true, Bool.false_eq_true, if_false, ne_eq, not_true_eq_false, hsame, if_true,
        ite_self]
      refine ⟨fun _ => ⟨hun, ?_⟩, fun h => ⟨rfl, hheap2 (hheap1 h)⟩⟩
      rw [hmem, hblock, hnorf, Mem.copy_patched_buffer _ _ _ hpiece, hbase]

theorem checkBlocks_spec (k : Controller) (c : ChipInfo) (d : Nor) (buf : Mem) (offs n : ℕ)
    (hmem : ∀ i, i < n * c.sectorSize → d.mem (offs + i) = buf i)
    (hfit : offs + n * c.sectorSize ≤ c.size) : checkBlocks k c d buf offs n = true := by
  induction n generalizing buf offs with
  | zero => rfl
  | succ n ih =>
    rw [Nat.add_mul, Nat.one_mul] at hfit hmem
    have hpos := c.sectorSize_pos
    have hnext : u32 (offs + c.sectorSize) = offs + c.sectorSize :=
      u32_of_lt (lt_of_le_of_lt (by omega) c.size_lt_u32)
    have hsame : sameBytes c.sectorSize buf
        (scratch.copy 0 c.sectorSize (d.mem.shift offs)) = true := by
      rw [sameBytes_iff]
      intro i hi
      rw [Mem.copy_start _ _ hi, Mem.shift_apply, hmem i (by omega)]
    rw [checkBlocks, raspiRead_spec k c d _ _ _ (by omega)]
    simp only [ne_eq, not_true_eq_false, if_false, hsame, if_true, hnext]
    refine ih (buf.shift c.sectorSize) (offs + c.sectorSize) ?_ (by omega)
    intro i hi
    rw [Nat.add_assoc, hmem (c.sectorSize + i) (by omega), Mem.shift_apply]

theorem eraseWriteAligned_spec (k : Controller) (c : ChipInfo) (n : ℕ) (f : Flash) (buf : Mem)
    (offs : ℕ) (hu : f.nor.Unprotected) (hal : c.sectorSize ∣ offs)
    (hfit : offs + n * c.sectorSize ≤ c.size) :
    PassOutcome f buf offs (n * c.sectorSize)
      (eraseWriteAligned k c f buf offs (n * c.sectorSize)) := by
  obtain ⟨hnor, hfail, hheap⟩ := malloc_cases f
  unfold eraseWriteAligned
  cases hok : (malloc f).1 with
  | false => exact PassOutcome.of_failed (by simp [hok]) (hfail hok)
  | true =>
    obtain ⟨her, hwr, hun, hmem⟩ := erase_write_spec k c n (malloc f).2.nor buf offs
      (by rw [hnor]; exact hu) hal hfit
    have hcheck : checkBlocks k c (raspiWrite k c (raspiErase c (malloc f).2.nor offs
        (n * c.sectorSize)).2 buf offs (n * c.sectorSize)).2 buf offs n = true := by
      refine checkBlocks_spec k c _ buf offs n ?_ hfit
      intro i hi
      rw [hmem, Mem.copy_inside _ _ hi]
    have hdiv : n * c.sectorSize / c.sectorSize = n := Nat.mul_div_cancel n c.sectorSize_pos
    simp only [hok, Bool.not_true, Bool.false_eq_true, if_false, her, hwr, ne_eq,
      not_true_eq_false, hdiv, hcheck, Bool.and_false]
    refine ⟨fun _ => ⟨hun, ?_⟩, fun h => ⟨rfl, hheap h⟩⟩
    rw [hmem, hnor]

/-- The passes of the loop fuse. -/
theorem PassOutcome.append {f : Flash} {buf : Mem} {offs a b : ℕ} {r s : ℤ × Flash}
    (hr : PassOutcome f buf offs a r) (hret : r.1 = 0)
    (hs : PassOutcome r.2 (buf.shift a) (offs + a) b s) :
    PassOutcome f buf offs (a + b) s := by
  obtain ⟨_, hmem⟩ := hr.1 hret
  refine ⟨?_, fun h => hs.2 (hr.2 h).2⟩
  intro h
  obtain ⟨hun', hmem'⟩ := hs.1 h
  refine ⟨hun', ?_⟩
  rw [hmem', hmem, Mem.copy_append]

theorem eraseWriteLoop_spec (k : Controller) (c : ChipInfo) (f : Flash) (buf : Mem)
    (offs count : ℕ) (hu : f.nor.Unprotected) (hfit : offs + count ≤ c.size) :
    PassOutcome f buf offs count (eraseWriteLoop k c f buf offs count) := by
  have hpos := c.sectorSize_pos
  have hsize := c.size_lt_u32
  induction count using Nat.strong_induction_on generalizing f buf offs with
  | h count ih =>
    rw [eraseWriteLoop]
    by_cases hcount : count = 0
    · subst hcount
      rw [if_pos rfl]
      exact ⟨fun _ => ⟨hu, (Mem.copy_zero ..).symm⟩, fun h => ⟨rfl, h⟩⟩
    · rw [if_neg hcount]
      have hblock := inBlock_lt c offs
      by_cases hpart : inBlock c offs ≠ 0 ∨ count < c.sectorSize
      · rw [if_pos hpart]
        have hpiece := eraseWritePiece_spec k c f buf offs
          (min count (c.sectorSize - inBlock c offs)) hu (by omega) (by omega)
        set piece := min count (c.sectorSize - inBlock c offs) with hpieceDef
        by_cases hret : (eraseWritePiece k c f buf offs piece).1 = 0
        · have hrest := ih (count - piece) (by omega) _ (buf.shift piece) (offs + piece)
            (hpiece.1 hret).1 (by omega)
          simp only [hret, ne_eq, not_true_eq_false, if_false]
          rw [u32_of_lt (by omega)]
          simpa only [show piece + (count - piece) = count by omega] using
            hpiece.append hret hrest
        · simp only [ne_eq, hret, not_false_eq_true, if_true]
          exact ⟨fun h => absurd h hret, fun h => absurd (hpiece.2 h).1 hret⟩
      · rw [if_neg hpart]
        rw [not_or, not_not, not_lt] at hpart
        obtain ⟨halign, hlarge⟩ := hpart
        have hmod : count - inBlock c count = count / c.sectorSize * c.sectorSize := by
          have := Nat.div_add_mod' count c.sectorSize
          rw [inBlock_eq]
          omega
        have hone : 0 < count / c.sectorSize * c.sectorSize :=
          Nat.mul_pos (Nat.div_pos hlarge hpos) hpos
        have hle : count / c.sectorSize * c.sectorSize ≤ count := Nat.div_mul_le_self ..
        have haligned := eraseWriteAligned_spec k c (count / c.sectorSize) f buf offs hu
          (Nat.dvd_of_mod_eq_zero (by rw [← inBlock_eq]; exact halign)) (by omega)
        rw [hmod]
        set aligned := count / c.sectorSize * c.sectorSize with halignedDef
        by_cases hret : (eraseWriteAligned k c f buf offs aligned).1 = 0
        · have hrest := ih (count - aligned) (by omega) _ (buf.shift aligned) (offs + aligned)
            (haligned.1 hret).1 (by omega)
          simp only [hret, ne_eq, not_true_eq_false, if_false]
          rw [u32_of_lt (by omega)]
          simpa only [show aligned + (count - aligned) = count by omega] using
            haligned.append hret hrest
        · simp only [ne_eq, hret, not_false_eq_true, if_true]
          exact ⟨fun h => absurd h hret, fun h => absurd (haligned.2 h).1 hret⟩

/-- The size test lets through what leaves room for the three boot partitions. -/
theorem raspiEraseWrite_of_limit (k : Controller) (c : ChipInfo) (f : Flash) (buf : Mem)
    (offs n : ℕ) (hboot : n + (cfgBootloaderSize + cfgConfigSize + cfgFactorySize) ≤ c.size) :
    raspiEraseWrite k c f buf offs n = eraseWriteLoop k c f buf offs n := by
  have hsize := c.size_lt
  have htest : ¬((n : ℤ) % 2 ^ 32).toNat >
      (((c.size : ℤ) - (cfgBootloaderSize + cfgConfigSize + cfgFactorySize)) % 2 ^ 32).toNat := by
    unfold ChipInfo.size at *
    omega
  rw [raspiEraseWrite, if_neg htest, Int.toNat_natCast]

/-- Without failing allocations a write that passes the size test succeeds. -/
theorem raspiEraseWrite_ret (k : Controller) (c : ChipInfo) (f : Flash) (buf : Mem)
    (offs n : ℕ) (hu : f.nor.Unprotected) (hheap : f.heap = []) (hfit : offs + n ≤ c.size)
    (hboot : n + (cfgBootloaderSize + cfgConfigSize + cfgFactorySize) ≤ c.size) :
    (raspiEraseWrite k c f buf offs n).1 = 0 := by
  rw [raspiEraseWrite_of_limit k c f buf offs n hboot]
  exact ((eraseWriteLoop_spec k c f buf offs n hu hfit).2 hheap).1

theorem raspiEraseWrite_mem (k : Controller) (c : ChipInfo) (f : Flash) (buf : Mem)
    (offs : ℕ) (count : ℤ) (hu : f.nor.Unprotected) (hcount : 0 ≤ count)
    (hfit : offs + count ≤ c.size) (hret : (raspiEraseWrite k c f buf offs count).1 = 0) :
    (raspiEraseWrite k c f buf offs count).2.nor.mem = f.nor.mem.copy offs count.toNat buf := by
  unfold raspiEraseWrite at *
  split at hret
  · simp at hret
  · rename_i htest
    rw [if_neg htest]
    exact ((eraseWriteLoop_spec k c f buf offs count.toNat hu (by omega)).1 hret).2

/-- A successful erase-write has stored the buffer and touched nothing else,
whatever the alignment of its two ends. -/
theorem raspiEraseWrite_stores (k : Controller) (c : ChipInfo) (f : Flash) (buf : Mem)
    (offs : ℕ) (count : ℤ) (hu : f.nor.Unprotected) (hcount : 0 ≤ count)
    (hfit : offs + count ≤ c.size) (hret : (raspiEraseWrite k c f buf offs count).1 = 0) :
    (∀ i : ℕ, i < count →
        (raspiEraseWrite k c f buf offs count).2.nor.mem (offs + i) = buf i) ∧
      ∀ x : ℕ, (x < offs ∨ offs + count ≤ x) →
        (raspiEraseWrite k c f buf offs count).2.nor.mem x = f.nor.mem x := by
  rw [raspiEraseWrite_mem k c f buf offs count hu hcount hfit hret]
  constructor
  · intro i hi
    exact Mem.copy_inside _ _ (by omega)
  · intro x hx
    exact Mem.copy_outside _ _ (by omega)

theorem raspiEraseWrite_stores_unaligned :
    let f : Flash := ⟨⟨fun _ => 0xff, false, 0⟩, []⟩
    let r := raspiEraseWrite rt6855A chipsData[6] f (fun i => i.toUInt8) 0x50100 0x20000
    (∀ i : ℕ, (i : ℤ) < 0x20000 → r.2.nor.mem (0x50100 + i) = i.toUInt8) ∧
      ∀ x : ℕ, (x < 0x50100 ∨ (0x50100 : ℤ) + 0x20000 ≤ x) → r.2.nor.mem x = 0xff := by
  have hfit : (0x50100 : ℤ) + 0x20000 ≤ chipsData[6].size := by decide
  refine raspiEraseWrite_stores rt6855A chipsData[6] _ _ 0x50100 0x20000 rfl (by decide) hfit ?_
  exact raspiEraseWrite_ret rt6855A chipsData[6] _ _ 0x50100 0x20000 rfl rfl (by decide)
    (by decide)

end Iot7688.SpiFlash
