import Mathlib.Algebra.Group.Nat.Defs
import Mathlib.Data.List.Basic

/-!
The bad block table of MT7620_bmt.c: the pool at the end of the chip that
replaces bad blocks, and the table of replacements that one block of the pool
holds. The NAND controller is an argument: it answers every operation, and
operations are told apart by a counter. The calls of find_available_block are
recorded.
-/
namespace Iot7688.Bmt

abbrev Byte := BitVec 8
abbrev Buf := ℕ → Byte

/-- chip_mode as ranand_init reads it, and the size given to init_bmt. -/
structure Conf where
  chipMode : ℕ
  bmtBlockCount : ℕ

namespace Conf

variable (c : Conf)

def isNandPage2048 : Bool := c.chipMode == 1 || c.chipMode == 11

def nandAddrlen : ℕ :=
  if c.isNandPage2048 then (if c.chipMode ≠ 11 then 4 else 5)
  else if c.chipMode ≠ 10 then 3 else 4

def nandSizeMap : Bool → ℕ → ℕ
  | false, 0 => 25
  | false, _ => 30
  | true, 0 => 20
  | true, 1 => 27
  | true, _ => 30

def chipSizeBit : ℕ := nandSizeMap c.isNandPage2048 (c.nandAddrlen - 3)
def pageSizeBit : ℕ := if c.isNandPage2048 then 11 else 9
def numpagePerBlockBit : ℕ := if c.isNandPage2048 then 6 else 5
def oobsizePerPageBit : ℕ := if c.isNandPage2048 then 6 else 4
def badBlockPos : ℕ := if c.isNandPage2048 then 0 else 4
def eccOffset : ℕ := if c.isNandPage2048 then 6 else 5

def pageSize : ℕ := 2 ^ c.pageSizeBit
def oobSize : ℕ := 2 ^ c.oobsizePerPageBit
def pagePerBlock : ℕ := 2 ^ c.numpagePerBlockBit
def blockSize : ℕ := 2 ^ (c.numpagePerBlockBit + c.pageSizeBit)

def totalBlockCount : ℕ := 2 ^ (c.chipSizeBit - c.pageSizeBit - c.numpagePerBlockBit)
def systemBlockCount : ℕ := c.totalBlockCount - c.bmtBlockCount

def offset (block : ℕ) : ℕ := block * c.blockSize
def pageAddr (block : ℕ) : ℕ := block * c.blockSize / c.pageSize

end Conf

def maxBmtSize : ℕ := 0x80
def maxDatSize : ℕ := 0x1000
def maxOobSize : ℕ := 0x80
def bmtVersion : ℕ := 1
def oobSignatureOffset : ℕ := 11
def oobIndexOffset : ℕ := 14

/-- sizeof(phys_bmt_header) and sizeof(phys_bmt_struct). -/
def physHeaderSize : ℕ := 20
def physSize : ℕ := physHeaderSize + 4 * maxBmtSize

/-- Pages hold their data and then the spare bytes. A block is erased when it has
been erased since it was last written. -/
structure Flash where
  page : ℕ → Buf
  erased : ℕ → Bool

/-- Outcomes of nfc_write_page; after a failed verification it tries to mark the
block bad itself. -/
inductive WriteStatus
  | ok
  | fail
  | verifyFail (marked : Bool)
deriving DecidableEq

/-- The controller: which erases (by block), writes and marks (by page) succeed,
what pages hold after an erase that failed and after programming, what a read
delivers, and the stack behind a table copied from a page. -/
structure Host where
  eraseOk : ℕ → ℕ → Bool
  write : ℕ → ℕ → WriteStatus
  markOk : ℕ → ℕ → Bool
  scrap : ℕ → ℕ → Buf
  cells : ℕ → Buf → Buf → Buf
  read : ℕ → Buf → Bool × Buf
  stack : Buf

structure BmtEntry where
  badIndex : ℕ
  mappedIndex : ℕ

structure BmtStruct where
  table : ℕ → BmtEntry
  version : ℕ
  mappedCount : ℕ
  badCount : ℕ

/-- A call of find_available_block: the table and its block, the blocks it issued
an erase for, what it returned and the flash it left. -/
structure FindCall where
  bmt : BmtStruct
  bmtBlockIndex : ℕ
  erases : List ℕ
  ret : ℕ
  flash : Flash

structure St where
  flash : Flash
  bmt : BmtStruct
  bmtBlockIndex : ℕ
  poolErased : Bool
  pageBuf : Buf
  tick : ℕ
  calls : List FindCall

section

variable (c : Conf) (host : Host)

/-- The first spare byte of a page that is not 0xff makes it bad. -/
def badPos : ℕ := c.pageSize + c.badBlockPos

def nandBlockBadBmt (flash : Flash) (offset : ℕ) : Bool :=
  flash.page (offset >>> c.pageSizeBit) (badPos c) != 0xff

def nandEraseBmt (offset : ℕ) (s : St) : Bool × St :=
  let block := (offset >>> c.pageSizeBit) / c.pagePerBlock
  let ok := host.eraseOk s.tick block
  let page := fun p =>
    if p / c.pagePerBlock = block then (if ok then fun _ => 0xff else host.scrap s.tick p)
    else s.flash.page p
  (ok, { s with
    tick := s.tick + 1
    flash := ⟨page, Function.update s.flash.erased block ok⟩ })

/-- The page with its bad block mark cleared to 0x33. -/
def marked (page : Buf) : Buf := Function.update page (badPos c) (page (badPos c) &&& 0x33)

/-- The result of nfc_write_oob is ignored. -/
def markBlockBadBmt (offset : ℕ) (s : St) : St :=
  let page := offset >>> c.pageSizeBit
  { s with
    tick := s.tick + 1
    flash :=
      ⟨if host.markOk s.tick page then
          Function.update s.flash.page page (marked c (s.flash.page page))
        else s.flash.page,
        Function.update s.flash.erased (page / c.pagePerBlock) false⟩ }

/-- After a failed verification the mark is also left in the buffer. -/
def nfcWritePage (buf : Buf) (page : ℕ) (s : St) : Bool × Buf × St :=
  let block := page / c.pagePerBlock
  let written := Function.update s.flash.page page (host.cells s.tick (s.flash.page page) buf)
  let erased := Function.update s.flash.erased block false
  match host.write s.tick page with
  | .ok => (true, buf, { s with tick := s.tick + 1, flash := ⟨written, erased⟩ })
  | .fail => (false, buf, { s with tick := s.tick + 1, flash := ⟨written, erased⟩ })
  | .verifyFail ok =>
      let first := block * c.pagePerBlock
      (false, Function.update buf (badPos c) 0x33,
        { s with
          tick := s.tick + 1
          flash := ⟨if ok then Function.update written first (marked c (written first)) else written,
            erased⟩ })

/-- Read a page into page_buf. -/
def nandReadPageBmt (page : ℕ) (s : St) : Bool × St :=
  let r := host.read s.tick (s.flash.page page)
  (r.1, { s with
    tick := s.tick + 1
    pageBuf := fun i => if i < c.pageSize + c.oobSize then r.2 i else s.pageBuf i })

/-- Write a page from dat, or from dat_buf, and oob_buf. Only dat_buf lies before
oob_buf and is not copied. -/
def nandWritePageBmt (page : ℕ) (dat : Option Buf) (s : St) : Bool × St :=
  match dat with
  | some dat =>
      let w := nfcWritePage c host (fun i => if i < c.pageSize then dat i else s.pageBuf i) page s
      (w.1, w.2.2)
  | none =>
      let w := nfcWritePage c host s.pageBuf page s
      (w.1, { w.2.2 with pageBuf := w.2.1 })

def isBlockMapped (bmt : BmtStruct) (index : ℕ) : Option ℕ :=
  (List.range bmt.mappedCount).find? fun i => index == (bmt.table i).mappedIndex

/-- The sweep over the pool. The test for the table block does not look at i. -/
def eraseUnmapped : List ℕ → St → List ℕ × St
  | [], s => ([], s)
  | i :: is, s =>
      let block := c.systemBlockCount
      if block = s.bmtBlockIndex then eraseUnmapped is s
      else if nandBlockBadBmt c s.flash (c.offset (block + i)) then eraseUnmapped is s
      else if (isBlockMapped s.bmt (block + i)).isSome then eraseUnmapped is s
      else
        let e := nandEraseBmt c host (c.offset (block + i)) s
        let s := if e.1 then e.2 else markBlockBadBmt c host (c.offset (block + i)) e.2
        let r := eraseUnmapped is s
        ((block + i) :: r.1, r.2)

/-- The blocks of the pool in the order of the search. -/
def poolBlocks (startFromEnd : Bool) : List ℕ :=
  (List.range c.bmtBlockCount).map fun i =>
    if startFromEnd then c.totalBlockCount - 1 - i else c.systemBlockCount + i

def isAvailable (s : St) (block : ℕ) : Bool :=
  block != s.bmtBlockIndex && !nandBlockBadBmt c s.flash (c.offset block) &&
    (isBlockMapped s.bmt block).isNone

def sweepPool (s : St) : List ℕ × St :=
  if s.poolErased then ([], s)
  else
    let r := eraseUnmapped c host (List.range c.bmtBlockCount) s
    (r.1, { r.2 with poolErased := true })

def findAvailableBlock (startFromEnd : Bool) (s : St) : ℕ × St :=
  let r := sweepPool c host s
  let ret := ((poolBlocks c startFromEnd).find? (isAvailable c r.2)).getD 0
  (ret, { r.2 with calls := r.2.calls ++ [⟨s.bmt, s.bmtBlockIndex, r.1, ret, r.2.flash⟩] })

def isPageUsed (buf : Buf) : Bool :=
  let oob := fun i => buf (c.pageSize + i)
  oob oobIndexOffset != 0xff || oob (oobIndexOffset + 1) != 0xff || oob c.eccOffset != 0xff ||
    oob (c.eccOffset + 1) != 0xff || oob (c.eccOffset + 2) != 0xff

def setBadIndexToOob (index : ℕ) (buf : Buf) : Buf := fun i =>
  if i = c.pageSize + oobIndexOffset then BitVec.ofNat 8 index
  else if i = c.pageSize + oobIndexOffset + 1 then BitVec.ofNat 8 (index / 256)
  else buf i

def getBadIndexFromOob (buf : Buf) : ℕ :=
  (buf (c.pageSize + oobIndexOffset)).toNat + 256 * (buf (c.pageSize + oobIndexOffset + 1)).toNat

/-- The spare bytes with the index of the bad block, for a block of the system
part; a mapped block has it already. -/
def indexed (errorBlock : ℕ) (buf : Buf) : Buf :=
  if errorBlock < c.systemBlockCount then setBadIndexToOob c errorBlock buf else buf

/-- The loop over the other pages; it ends early when a write fails. -/
def migratePages (errorBlock errorPage toIndex : ℕ) : List ℕ → St → Bool × St
  | [], s => (true, s)
  | page :: pages, s =>
      if page = errorPage then migratePages errorBlock errorPage toIndex pages s
      else
        let s := (nandReadPageBmt c host (c.pageAddr errorBlock + page) s).2
        if isPageUsed c s.pageBuf then
          let buf := Function.update (indexed c errorBlock s.pageBuf) (badPos c) 0xff
          let w := nandWritePageBmt c host (c.pageAddr toIndex + page) none { s with pageBuf := buf }
          if w.1 then migratePages errorBlock errorPage toIndex pages w.2
          else (false, markBlockBadBmt c host (c.offset toIndex) w.2)
        else migratePages errorBlock errorPage toIndex pages s

/-- migrate_from_bad. Without data the page to rewrite is read into a buffer that
is dropped, and dat_buf is written as it is. No result when the fuel runs out. -/
def migrateFromBad : ℕ → ℕ → Option Buf → St → Option ℕ × St
  | 0, _, _, s => (none, s)
  | fuel + 1, offset, writeDat, s =>
      let errorBlock := offset / c.blockSize
      let errorPage := offset / c.pageSize % c.pagePerBlock
      let cleared : Buf := fun i =>
        if c.pageSize ≤ i ∧ i < c.pageSize + maxOobSize then 0xff else s.pageBuf i
      let f := findAvailableBlock c host false { s with pageBuf := cleared }
      if f.1 = 0 then (some 0, f.2)
      else
        let w := nandWritePageBmt c host (c.pageAddr f.1 + errorPage) writeDat
          { f.2 with pageBuf := indexed c errorBlock f.2.pageBuf }
        if w.1 then
          let m := migratePages c host errorBlock errorPage f.1 (List.range c.pagePerBlock) w.2
          if m.1 then (some f.1, m.2) else migrateFromBad fuel offset writeDat m.2
        else migrateFromBad fuel offset writeDat (markBlockBadBmt c host (c.offset f.1) w.2)

/-- write_bmt_to_flash, of dat_buf and oob_buf. -/
def writeBmtToFlash : ℕ → St → Option Bool × St
  | 0, s => (none, s)
  | fuel + 1, s =>
      let needErase := s.bmtBlockIndex ≠ 0
      let s1 :=
        if needErase then s
        else
          let f := findAvailableBlock c host true s
          { f.2 with bmtBlockIndex := f.1 }
      if s1.bmtBlockIndex = 0 then (some false, s1)
      else
        let e := if needErase then nandEraseBmt c host (c.offset s1.bmtBlockIndex) s1 else (true, s1)
        if e.1 then
          let w := nandWritePageBmt c host (c.pageAddr s1.bmtBlockIndex) none e.2
          if w.1 then (some true, w.2)
          else
            writeBmtToFlash fuel { markBlockBadBmt c host (c.offset s1.bmtBlockIndex) w.2 with
              bmtBlockIndex := 0 }
        else
          writeBmtToFlash fuel { markBlockBadBmt c host (c.offset s1.bmtBlockIndex) e.2 with
            bmtBlockIndex := 0 }

def calBmtChecksum (phys : Buf) : Byte :=
  (List.range (4 * c.bmtBlockCount)).foldl (fun sum i => sum + phys (physHeaderSize + i))
    (phys 3 + phys 5)

def entryByte (e : BmtEntry) : ℕ → Byte
  | 0 => BitVec.ofNat 8 e.badIndex
  | 1 => BitVec.ofNat 8 (e.badIndex / 256)
  | 2 => BitVec.ofNat 8 e.mappedIndex
  | _ => BitVec.ofNat 8 (e.mappedIndex / 256)

/-- The phys_bmt_struct of a table, without its checksum. -/
def physBytes (bmt : BmtStruct) : Buf := fun i =>
  if i = 0 then 0x42
  else if i = 1 then 0x4d
  else if i = 2 then 0x54
  else if i = 3 then BitVec.ofNat 8 bmtVersion
  else if i = 5 then BitVec.ofNat 8 bmt.mappedCount
  else if physHeaderSize ≤ i ∧ i < physHeaderSize + 4 * c.bmtBlockCount then
    entryByte (bmt.table ((i - physHeaderSize) / 4)) ((i - physHeaderSize) % 4)
  else 0xff

/-- The copies to dat_buf, which may reach into oob_buf, and to oob_buf. -/
def fillNandBmtBuffer (bmt : BmtStruct) (buf : Buf) : Buf :=
  let phys := Function.update (physBytes c bmt) 6 (calBmtChecksum c (physBytes c bmt))
  fun i =>
    if i = c.pageSize + oobSignatureOffset then 0x62
    else if i = c.pageSize + oobSignatureOffset + 1 then 0x6d
    else if i = c.pageSize + oobSignatureOffset + 2 then 0x74
    else if i < physSize then phys i
    else buf i

/-- memset(oob_buf, 0xFF, sizeof(oob_buf)); oob_buf is a pointer of four bytes. -/
def clearOob (buf : Buf) : Buf := fun i =>
  if c.pageSize ≤ i ∧ i < c.pageSize + 4 then 0xff else buf i

def matchBmtSignature (buf : Buf) : Bool := buf 0 == 0x42 && buf 1 == 0x4d && buf 2 == 0x54

def physEntry (phys : Buf) (i : ℕ) : BmtEntry where
  badIndex := (phys (physHeaderSize + 4 * i)).toNat + 256 * (phys (physHeaderSize + 4 * i + 1)).toNat
  mappedIndex :=
    (phys (physHeaderSize + 4 * i + 2)).toNat + 256 * (phys (physHeaderSize + 4 * i + 3)).toNat

def validBmtData (phys : Buf) : Bool :=
  phys 6 == calBmtChecksum c phys &&
    (List.range (phys 5).toNat).all fun i =>
      decide ((physEntry phys i).badIndex < c.totalBlockCount ∧
        (physEntry phys i).mappedIndex < c.totalBlockCount ∧
        c.systemBlockCount ≤ (physEntry phys i).mappedIndex)

/-- Mark the bad blocks of a loaded table that are not marked. -/
def markLoaded : List ℕ → St → St
  | [], s => s
  | i :: is, s =>
      let offset := c.offset (s.bmt.table i).badIndex
      markLoaded is
        (if nandBlockBadBmt c s.flash offset then s else markBlockBadBmt c host offset s)

/-- load_bmt_data, over the blocks still to look at, from the end. Entries past
MAX_BMT_SIZE would be written behind the table. -/
def loadBmtData : ℕ → St → ℕ × St
  | 0, s => (0, s)
  | n + 1, s =>
      let bmtIndex := c.systemBlockCount + n
      if nandBlockBadBmt c s.flash (c.offset bmtIndex) then loadBmtData n s
      else
        let r := nandReadPageBmt c host (c.pageAddr bmtIndex) s
        let phys : Buf := fun i => if i < physSize then r.2.pageBuf i else host.stack i
        if r.1 && matchBmtSignature r.2.pageBuf && validBmtData c phys then
          let count := (phys 5).toNat
          let bmt : BmtStruct := { r.2.bmt with
            mappedCount := count
            version := (phys 3).toNat
            table := fun i => if i < count then physEntry phys i else r.2.bmt.table i }
          (bmtIndex, markLoaded c host (List.range count) { r.2 with bmt := bmt })
        else loadBmtData n r.2

def BmtStruct.setMapped (bmt : BmtStruct) (i index : ℕ) : BmtStruct :=
  { bmt with
    table := Function.update bmt.table i { bmt.table i with mappedIndex := index % 2 ^ 16 } }

def BmtStruct.append (bmt : BmtStruct) (badIndex index : ℕ) : BmtStruct :=
  { bmt with
    table := Function.update bmt.table bmt.mappedCount ⟨badIndex % 2 ^ 16, index % 2 ^ 16⟩
    mappedCount := (bmt.mappedCount + 1) % 2 ^ 8 }

/-- The loop of reconstruct_bmt over the pool. -/
def scanPool : List ℕ → St → St
  | [], s => s
  | i :: is, s =>
      let index := c.systemBlockCount + i
      if nandBlockBadBmt c s.flash (c.offset index) then scanPool is s
      else
        let s := (nandReadPageBmt c host (c.pageAddr index) s).2
        let badIndex := getBadIndexFromOob c s.pageBuf
        if badIndex ≥ c.systemBlockCount then scanPool is s
        else if !nandBlockBadBmt c s.flash (c.offset badIndex) then scanPool is s
        else
          scanPool is { s with
            bmt :=
              match isBlockMapped s.bmt badIndex with
              | some mapped => s.bmt.setMapped mapped index
              | none => s.bmt.append badIndex index }

def zeroTable (bmt : BmtStruct) : ℕ → BmtEntry := fun i =>
  if i < c.bmtBlockCount then ⟨0, 0⟩ else bmt.table i

/-- reconstruct_bmt never returns NULL. -/
def reconstructBmt (fuel : ℕ) (s : St) : Option Bool × St :=
  let s := scanPool c host (List.range c.bmtBlockCount)
    { s with bmt := ⟨zeroTable c s.bmt, bmtVersion, 0, 0⟩ }
  let w := writeBmtToFlash c host fuel
    { s with pageBuf := fillNandBmtBuffer c s.bmt (clearOob c s.pageBuf) }
  (w.1.map fun _ => true, w.2)

def initBmt (fuel : ℕ) (s : St) : Option Bool × St :=
  if 0 < c.bmtBlockCount ∧ c.bmtBlockCount < maxBmtSize then
    let r := loadBmtData c host c.bmtBlockCount { s with
      poolErased := false
      bmt := { s.bmt with table := zeroTable c s.bmt }
      pageBuf := fun i => if i < maxDatSize + maxOobSize then 0 else s.pageBuf i }
    let s := { r.2 with bmtBlockIndex := r.1 }
    if r.1 ≠ 0 then (some true, s) else reconstructBmt c host fuel s
  else (some false, s)

inductive UpdateReason
  | eraseFail
  | writeFail
  | unmappedBlock
deriving DecidableEq

/-- The change of the table in update_bmt. -/
def updateTable (bmt : BmtStruct) (badIndex mapIndex : ℕ) : BmtStruct :=
  if badIndex ≥ c.systemBlockCount then
    let i := ((List.range c.bmtBlockCount).find? fun i =>
      (bmt.table i).mappedIndex == badIndex).getD c.bmtBlockCount
    bmt.setMapped i mapIndex
  else bmt.append badIndex mapIndex

/-- update_bmt. No result when the fuel runs out. -/
def updateBmt (fuel offset : ℕ) (reason : UpdateReason) (dat : Option Buf) (s : St) :
    Option Bool × St :=
  let badIndex := offset / c.blockSize
  let m :=
    if reason = .writeFail then migrateFromBad c host fuel offset dat s
    else
      let f := findAvailableBlock c host false s
      (some f.1, f.2)
  match m.1 with
  | none => (none, m.2)
  | some mapIndex =>
      if mapIndex = 0 then (some false, m.2)
      else
        let bmt := updateTable c m.2.bmt badIndex mapIndex
        let w := writeBmtToFlash c host fuel { m.2 with
          bmt := bmt
          pageBuf := fillNandBmtBuffer c bmt (clearOob c m.2.pageBuf) }
        if w.1 = some true then (some true, markBlockBadBmt c host offset w.2) else w

end

end Iot7688.Bmt
