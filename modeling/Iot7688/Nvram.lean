import Iot7688.Lib.Memory
import Iot7688.Lib.Buckets

/-!
The NVRAM library: nvram_open, the hash table of tuples, and nvram_commit, which
writes the table back as `name=value` strings and builds it again from them. The
partition is mapped at a page boundary, on a little-endian MIPS32; bytes from
`length` on lie outside of it. Allocation succeeds. A search or a string that runs
past the partition has no result.
-/
namespace Iot7688.Nvram

open Lib

/-- A string in memory, without its NUL. -/
structure CString where
  bytes : List Byte
  noNul : 0 ∉ bytes
deriving DecidableEq

namespace CString

def strlen (s : CString) : ℕ := s.bytes.length

/-- The string that starts with the given bytes. -/
def ofBytes (bytes : List Byte) : CString where
  bytes := bytes.takeWhile fun b => b ≠ 0
  noNul h := by simpa using List.all_eq_true.mp List.all_takeWhile _ h

def ofString (s : String) : CString := ofBytes (s.toList.map fun c => c.toNat.toUInt8)

end CString

def equals : Byte := 0x3d

def nvramMinSpace : ℕ := 0x8000
def nvramMagic : ℕ := 0x48534c46
def nvramVersion : ℕ := 1
def nvramCrcStartPosition : ℕ := 9
def nvramRoundup (x y : ℕ) : ℕ := (x + (y - 1)) / y * y

def sdramInit : ℕ := 0x419
def sdramConfig : ℕ := 0
def sdramRefresh : ℕ := 0x40 ||| 0x8000

/-- sizeof(nvram_header_t), and its fields. -/
def headerSize : ℕ := 20
def lenField : ℕ := 4
def crcVerInitField : ℕ := 8
def configRefreshField : ℕ := 12
def configNcdlField : ℕ := 16

def getWord (m : Mem) (p : ℕ) : ℕ :=
  (m p).toNat + 2 ^ 8 * (m (p + 1)).toNat + 2 ^ 16 * (m (p + 2)).toNat + 2 ^ 24 * (m (p + 3)).toNat

def putWord (m : Mem) (p v : ℕ) : Mem := m.copy p 4 fun i => (v / 2 ^ (8 * i)).toUInt8

def storeBytes (m : Mem) (p : ℕ) (bytes : List Byte) : Mem :=
  m.copy p bytes.length fun i => bytes.getD i 0

abbrev Tuple := CString × CString

structure Handle where
  mmap : Mem
  length : ℕ
  offset : ℕ
  nvramHash : Buckets.Table CString CString
  nvramDead : List Tuple

def hashSize : ℕ := 257

/-- hash; char is signed. -/
def hash (s : CString) : UInt32 :=
  s.bytes.foldl (fun h c => 31 * h + c.toInt8.toInt32.toUInt32) 0

def bucket (name : CString) : ℕ := (hash name).toNat % hashSize

def nvramGet (h : Handle) (name : CString) : Option CString :=
  Buckets.lookup bucket h.nvramHash name

/-- nvram_set, with the size test of _nvram_realloc; no handle for -ENOMEM. -/
def nvramSet (h : Handle) (name value : CString) : Option Handle :=
  if value.strlen + 1 > h.length - h.offset then none
  else some { h with nvramHash := Buckets.insert bucket h.nvramHash name value }

def nvramUnset (h : Handle) (name : CString) : Handle :=
  match (h.nvramHash (bucket name)).find? fun t => decide (t.1 = name) with
  | none => h
  | some t =>
      { h with
        nvramHash := Buckets.erase bucket h.nvramHash name
        nvramDead := t :: h.nvramDead }

/-- The strings of the data area, up to an empty one or one without `=`. -/
def parseTuples : ℕ → List Byte → Option (List Tuple)
  | 0, _ => none
  | _ + 1, [] => none
  | fuel + 1, b :: area =>
      if b = 0 then some []
      else
        let name := (b :: area).takeWhile fun c => c ≠ 0 && c ≠ equals
        match (b :: area).drop name.length with
        | [] => none
        | c :: rest =>
            if c ≠ equals then some []
            else
              let value := rest.takeWhile fun c => c ≠ 0
              match rest.drop value.length with
              | [] => none
              | _ :: rest =>
                  (parseTuples fuel rest).map fun ts =>
                    (CString.ofBytes name, CString.ofBytes value) :: ts

def dataArea (h : Handle) : List Byte :=
  (List.range (h.length - (h.offset + headerSize))).map fun i => h.mmap (h.offset + headerSize + i)

def hexDigit (d : ℕ) : Byte := if d < 10 then (48 + d).toUInt8 else (55 + d).toUInt8

/-- sprintf with "0x%04X" or "0x%08X" of a number of that many digits. -/
def hexText (digits v : ℕ) : CString :=
  CString.ofBytes (48 :: 120 ::
    (List.range digits).map fun k => hexDigit (v / 16 ^ (digits - 1 - k) % 16))

/-- nvram_set where the result is not looked at. -/
def trySet (h : Handle) (name value : CString) : Handle := (nvramSet h name value).getD h

def setMissing (name : String) (value : CString) (h : Handle) : Handle :=
  if (nvramGet h (CString.ofString name)).isSome then h
  else trySet h (CString.ofString name) value

/-- _nvram_rehash; the `=` that it replaces by a NUL for a while is back at the end. -/
def nvramRehash (h : Handle) : Option Handle :=
  (parseTuples ((dataArea h).length + 1) (dataArea h)).map fun ts =>
    let crcVerInit := getWord h.mmap (h.offset + crcVerInitField)
    let configRefresh := getWord h.mmap (h.offset + configRefreshField)
    let configNcdl := getWord h.mmap (h.offset + configNcdlField)
    let h := ts.foldl (fun h t => trySet h t.1 t.2)
      { h with nvramHash := fun _ => [], nvramDead := [] }
    let h := setMissing "sdram_init" (hexText 4 (crcVerInit / 2 ^ 16)) h
    let h := setMissing "sdram_config" (hexText 4 (configRefresh % 2 ^ 16)) h
    let h := setMissing "sdram_refresh" (hexText 4 (configRefresh / 2 ^ 16)) h
    setMissing "sdram_ncdl" (hexText 8 configNcdl) h

def digitValue (b : Byte) : ℕ :=
  if 48 ≤ b ∧ b ≤ 57 then b.toNat - 48
  else if 65 ≤ b ∧ b ≤ 90 then b.toNat - 55
  else if 97 ≤ b ∧ b ≤ 122 then b.toNat - 87
  else 36

def digitsValue (base : ℕ) (s : List Byte) : ℕ :=
  (s.takeWhile fun b => digitValue b < base).foldl (fun v b => v * base + digitValue b) 0

/-- strtoul(s, NULL, 0), for a 32-bit long. -/
def strtoul (s : CString) : ℕ :=
  let unsigned (s : List Byte) : ℕ :=
    match s with
    | 48 :: x :: d :: s =>
        if (x = 120 ∨ x = 88) ∧ digitValue d < 16 then digitsValue 16 (d :: s)
        else digitsValue 8 (48 :: x :: d :: s)
    | 48 :: s => digitsValue 8 (48 :: s)
    | s => digitsValue 10 s
  match s.bytes.dropWhile fun b => b = 32 || 9 ≤ b && b ≤ 13 with
  | 45 :: s => if unsigned s < 2 ^ 32 then (2 ^ 32 - unsigned s) % 2 ^ 32 else 2 ^ 32 - 1
  | 43 :: s => min (unsigned s) (2 ^ 32 - 1)
  | s => min (unsigned s) (2 ^ 32 - 1)

def crc8Table : List Byte :=
   [0x00, 0xf7, 0xb9, 0x4e, 0x25, 0xd2, 0x9c, 0x6b, 0x4a, 0xbd, 0xf3, 0x04, 0x6f, 0x98, 0xd6, 0x21,
    0x94, 0x63, 0x2d, 0xda, 0xb1, 0x46, 0x08, 0xff, 0xde, 0x29, 0x67, 0x90, 0xfb, 0x0c, 0x42, 0xb5,
    0x7f, 0x88, 0xc6, 0x31, 0x5a, 0xad, 0xe3, 0x14, 0x35, 0xc2, 0x8c, 0x7b, 0x10, 0xe7, 0xa9, 0x5e,
    0xeb, 0x1c, 0x52, 0xa5, 0xce, 0x39, 0x77, 0x80, 0xa1, 0x56, 0x18, 0xef, 0x84, 0x73, 0x3d, 0xca,
    0xfe, 0x09, 0x47, 0xb0, 0xdb, 0x2c, 0x62, 0x95, 0xb4, 0x43, 0x0d, 0xfa, 0x91, 0x66, 0x28, 0xdf,
    0x6a, 0x9d, 0xd3, 0x24, 0x4f, 0xb8, 0xf6, 0x01, 0x20, 0xd7, 0x99, 0x6e, 0x05, 0xf2, 0xbc, 0x4b,
    0x81, 0x76, 0x38, 0xcf, 0xa4, 0x53, 0x1d, 0xea, 0xcb, 0x3c, 0x72, 0x85, 0xee, 0x19, 0x57, 0xa0,
    0x15, 0xe2, 0xac, 0x5b, 0x30, 0xc7, 0x89, 0x7e, 0x5f, 0xa8, 0xe6, 0x11, 0x7a, 0x8d, 0xc3, 0x34,
    0xab, 0x5c, 0x12, 0xe5, 0x8e, 0x79, 0x37, 0xc0, 0xe1, 0x16, 0x58, 0xaf, 0xc4, 0x33, 0x7d, 0x8a,
    0x3f, 0xc8, 0x86, 0x71, 0x1a, 0xed, 0xa3, 0x54, 0x75, 0x82, 0xcc, 0x3b, 0x50, 0xa7, 0xe9, 0x1e,
    0xd4, 0x23, 0x6d, 0x9a, 0xf1, 0x06, 0x48, 0xbf, 0x9e, 0x69, 0x27, 0xd0, 0xbb, 0x4c, 0x02, 0xf5,
    0x40, 0xb7, 0xf9, 0x0e, 0x65, 0x92, 0xdc, 0x2b, 0x0a, 0xfd, 0xb3, 0x44, 0x2f, 0xd8, 0x96, 0x61,
    0x55, 0xa2, 0xec, 0x1b, 0x70, 0x87, 0xc9, 0x3e, 0x1f, 0xe8, 0xa6, 0x51, 0x3a, 0xcd, 0x83, 0x74,
    0xc1, 0x36, 0x78, 0x8f, 0xe4, 0x13, 0x5d, 0xaa, 0x8b, 0x7c, 0x32, 0xc5, 0xae, 0x59, 0x17, 0xe0,
    0x2a, 0xdd, 0x93, 0x64, 0x0f, 0xf8, 0xb6, 0x41, 0x60, 0x97, 0xd9, 0x2e, 0x45, 0xb2, 0xfc, 0x0b,
    0xbe, 0x49, 0x07, 0xf0, 0x9b, 0x6c, 0x22, 0xd5, 0xf4, 0x03, 0x4d, 0xba, 0xd1, 0x26, 0x68, 0x9f]

def hndcrc8 (data : List Byte) (crc : Byte) : Byte :=
  data.foldl (fun crc b => crc8Table.getD (crc ^^^ b).toNat 0) crc

def memBytes (m : Mem) (p n : ℕ) : List Byte := (List.range n).map fun i => m (p + i)

def tupleBytes (t : Tuple) : List Byte := t.1.bytes ++ equals :: t.2.bytes ++ [0]

/-- The inner loop of the writer, on the write position and the memory. -/
def writeBucket (endPos : ℕ) : List Tuple → ℕ × Mem → ℕ × Mem
  | [], s => s
  | t :: ts, s =>
      if s.1 + t.1.strlen + 1 + t.2.strlen + 1 > endPos then s
      else
        writeBucket endPos ts
          (s.1 + t.1.strlen + 1 + t.2.strlen + 1, storeBytes s.2 s.1 (tupleBytes t))

def writeTuples (endPos : ℕ) (t : Buckets.Table CString CString) (s : ℕ × Mem) : ℕ × Mem :=
  (List.range hashSize).foldl (fun s i => writeBucket endPos (t i) s) s

/-- The last three words of the header, without the CRC. -/
def headerWords (h : Handle) : ℕ × ℕ × ℕ :=
  match nvramGet h (CString.ofString "sdram_init"), nvramGet h (CString.ofString "sdram_config"),
    nvramGet h (CString.ofString "sdram_refresh"), nvramGet h (CString.ofString "sdram_ncdl") with
  | some init, some config, some refresh, some ncdl =>
      (nvramVersion * 2 ^ 8 + strtoul init % 2 ^ 16 * 2 ^ 16,
        strtoul config % 2 ^ 16 + strtoul refresh % 2 ^ 16 * 2 ^ 16, strtoul ncdl)
  | _, _, _, _ =>
      (nvramVersion * 2 ^ 8 + sdramInit * 2 ^ 16, sdramConfig + sdramRefresh * 2 ^ 16, 0)

/-- The data area after all tuples are written, and where they end. -/
def writeData (h : Handle) : ℕ × Mem :=
  let m := putWord h.mmap h.offset nvramMagic
  let m := putWord m (h.offset + crcVerInitField) (headerWords h).1
  let m := putWord m (h.offset + configRefreshField) (headerWords h).2.1
  let m := putWord m (h.offset + configNcdlField) (headerWords h).2.2
  let start := h.offset + headerSize
  writeTuples (h.length - 2) h.nvramHash (start, m.fill start (h.length - start) 0xff)

/-- The NUL at the end and the padding. -/
def endTuples (s : ℕ × Mem) : Mem :=
  let m : Mem := Function.update s.2 s.1 0
  if (s.1 + 1) % 4 ≠ 0 then m.fill (s.1 + 1) (4 - (s.1 + 1) % 4) 0 else m

/-- The length that goes into the header, for tuples that end at ptr. -/
def newLength (h : Handle) (ptr : ℕ) : ℕ := nvramRoundup (ptr + 2 - h.offset) 4

/-- The image that nvram_commit leaves in the partition. -/
def commitImage (h : Handle) : Mem :=
  let w := writeData h
  let m := endTuples w
  let len := newLength h w.1
  let m := putWord m (h.offset + lenField) len
  let crc := hndcrc8 (memBytes m (h.offset + nvramCrcStartPosition)
    (headerSize - nvramCrcStartPosition)) 0xff
  let crc := hndcrc8 (memBytes m (h.offset + headerSize) (len - headerSize)) crc
  putWord m (h.offset + crcVerInitField)
    (getWord m (h.offset + crcVerInitField) ||| crc.toNat)

/-- nvram_commit. When the header does not fit, the length given to memset wraps. -/
def nvramCommit (h : Handle) : Option (Int × Handle) :=
  if h.offset + headerSize > h.length then none
  else (nvramRehash { h with mmap := commitImage h }).map fun h => (0, h)

/-- The words of the partition that nvram_open looks at. -/
def searchCount (partSize : ℕ) : ℕ :=
  min ((2 ^ 32 - nvramMinSpace + partSize) % 2 ^ 32 / 4 + 1) (partSize / 4)

/-- nvram_open of a file with the given contents. -/
def nvramOpen (partSize : ℕ) (mmap : Mem) (rdonly : Bool) : Option Handle :=
  match (List.range (searchCount partSize)).find? fun i =>
      getWord mmap (4 * i) == nvramMagic with
  | none => none
  | some i =>
      let h : Handle := ⟨mmap, partSize, 4 * i, fun _ => [], []⟩
      if getWord mmap h.offset = nvramMagic ∧
          (rdonly ∨ getWord mmap (h.offset + lenField) < h.length - h.offset) then
        nvramRehash h
      else none

end Iot7688.Nvram
