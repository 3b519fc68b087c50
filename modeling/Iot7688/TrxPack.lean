import Iot7688.Lib.Scan
import Iot7688.Trx

/-!
The trx tool, which packs files behind a TRX header. Its options move one cursor through the
buffer that the offsets of the header are in too. Nothing bounds a padding or the number of
offsets, so in a run both have to stay in their place. Where an access leaves the buffer
there is no result. The host is little-endian and has 64-bit longs.
-/
namespace Iot7688.TrxPack

open Lib
open Trx (trxMagic crc32 lenField crc32Field flagVersionField)

def trxMaxLen : ℕ := 0x720000

/-- The field offsets of struct trx_header. -/
def offsetsField : ℕ := 16

/-- sizeof(struct trx_header) - 4. -/
def v1Header : ℕ := 28

/-- The size of binheader, and its flags. -/
def binheaderSize : ℕ := 32
def flagsField : ℕ := 22
def flagsSize : ℕ := 8

/-- What fread gets of a file, and whether it fails behind that. -/
structure Input where
  bytes : List Byte
  fails : Bool

/-- -f or no option at all, -A and -F. -/
inductive Kind
  | offset
  | append
  | mark
deriving DecidableEq

/-- An option, with what the calls that it leads to return: strtoul none for an illegal
string, fopen none or false, and realloc none or what is in the new memory. -/
inductive Opt
  | version2
  | file (kind : Kind) (input : Option Input)
  | outfile (opens : Bool)
  | maxlen (arg : Option (BitVec 64)) (fresh : Option Mem)
  | align (arg : Option (BitVec 64))
  | absolute (arg : Option (BitVec 64))
  | relative (arg : Option (BitVec 64))
  | unknown

structure State where
  buf : Mem
  maxlen : ℕ
  curLen : ℕ
  fsmark : ℕ
  i : ℕ
  trxVersion : ℕ
  /-- Whether in is not NULL. -/
  opened : Bool

/-- usage() and a return of EXIT_FAILURE, or the next option. -/
inductive After
  | failure
  | next (s : State)

/-- What the tool returns, with what it wrote. -/
inductive Exit
  | failure
  | success (out : List Byte)

def bytesMem (bytes : List Byte) : Mem := fun i => bytes.getD i 0

namespace State

def memcpy (s : State) (off : ℕ) (bytes : List Byte) : Option State :=
  if bytes.length = 0 ∨ off + bytes.length ≤ s.maxlen then
    some { s with buf := s.buf.copy off bytes.length (bytesMem bytes) }
  else none

def memset (s : State) (off n : ℕ) (b : Byte) : Option State :=
  if n = 0 ∨ off + n ≤ s.maxlen then some { s with buf := s.buf.fill off n b } else none

def read (s : State) (off n : ℕ) : Option (List Byte) :=
  if n = 0 ∨ off + n ≤ s.maxlen then some (slice s.buf off (off + n)) else none

end State

/-- What is missing to a multiple of ROUND. -/
def gap (round n : ℕ) : ℕ :=
  if n &&& (round - 1) = 0 then 0 else round - (n &&& (round - 1))

def start (malloc : Mem) : State where
  buf := malloc.copy 0 4 (bytesMem (leBytes 4 trxMagic))
  maxlen := trxMaxLen
  curLen := v1Header
  fsmark := 0
  i := 0
  trxVersion := 1
  opened := false

def version2 (s : State) : State :=
  if s.curLen = v1Header then { s with trxVersion := 2, curLen := s.curLen + 4 } else s

/-- What a file does before it is opened. -/
def record (s : State) : Kind → Option State
  | .offset => do
      let s ← s.memcpy (offsetsField + 4 * s.i) (leBytes 4 s.curLen)
      return { s with i := s.i + 1 }
  | .append => some s
  | .mark => some { s with fsmark := s.curLen }

/-- maxlen - cur_len, an unsigned long. -/
def capacity (s : State) : ℕ := (s.maxlen + 2 ^ 64 - s.curLen) % 2 ^ 64

/-- The end of a file is only seen by a read of more than there is. -/
def readFile (s : State) (input : Input) : Option After := do
  let room := capacity s
  let got := input.bytes.take room
  let s ← s.memcpy s.curLen got
  if input.fails = true ∨ input.bytes.length ≥ room then return .failure
  let s ← s.memset (s.curLen + got.length) (gap 4 got.length) 0
  return .next { s with
    curLen := (s.curLen + (got.length + gap 4 got.length)) % 2 ^ 32
    opened := true }

def addFile (s : State) (kind : Kind) (input : Option Input) : Option After := do
  let s ← record s kind
  match input with
  | none => return .failure
  | some input => readFile s input

def roundedMaxlen (arg : BitVec 64) : ℕ := (arg.toNat + gap 0x1000 arg.toNat) % 2 ^ 64

def setMaxlen (s : State) (arg : BitVec 64) (fresh : Option Mem) : After :=
  let n := roundedMaxlen arg
  if n < 0x1000 then .failure
  else
    match fresh with
    | none => .failure
    | some fresh => .next { s with maxlen := n, buf := fresh.copy 0 (min s.maxlen n) s.buf }

/-- cur_len & (n-1) and n - (cur_len & (n-1)), as size_t. -/
def unaligned (curLen n : ℕ) : ℕ := curLen &&& ((n + 2 ^ 64 - 1) % 2 ^ 64)

def alignGap (curLen n : ℕ) : ℕ := (n + 2 ^ 64 - unaligned curLen n) % 2 ^ 64

def align (s : State) (n : ℕ) : Option After :=
  if unaligned s.curLen n = 0 then some (.next s)
  else do
    let pad := alignGap s.curLen n
    let s ← s.memset s.curLen pad 0
    return .next { s with curLen := (s.curLen + pad) % 2 ^ 32 }

def absolute (s : State) (n : ℕ) : Option After :=
  if n < s.curLen then some (.next s)
  else do
    let s ← s.memset s.curLen (n - s.curLen) 0
    return .next { s with curLen := n % 2 ^ 32 }

/-- The smallest long has no negative. -/
def relative (s : State) (n : ℤ) : Option After :=
  if n = -2 ^ 63 then none
  else if n < 0 then
    if s.curLen < -n then some (.next { s with curLen := 0 })
    else some (.next { s with curLen := s.curLen - (-n).toNat })
  else do
    let s ← s.memset s.curLen n.toNat 0
    return .next { s with curLen := (s.curLen + n.toNat) % 2 ^ 32 }

def step (s : State) : Opt → Option After
  | .version2 => some (.next (version2 s))
  | .file kind input => addFile s kind input
  | .outfile opens => some (if opens then .next s else .failure)
  | .maxlen (some n) fresh => some (setMaxlen s n fresh)
  | .align (some n) => align s n.toNat
  | .absolute (some n) => absolute s n.toNat
  | .relative (some n) => relative s n.toInt
  | .maxlen none _ | .align none | .absolute none | .relative none | .unknown => some .failure

def loop : State → List Opt → Option After
  | s, [] => some (.next s)
  | s, o :: opts =>
      match step s o with
      | none => none
      | some .failure => some .failure
      | some (.next t) => loop t opts

def roundUp (s : State) : Option State := do
  let n := gap 0x1000 s.curLen
  let s ← s.memset s.curLen n 0
  return { s with curLen := (s.curLen + n) % 2 ^ 32 }

/-- What len gets, and what crc32 covers is up to. -/
def marked (s : State) : ℕ := if s.fsmark ≠ 0 then s.fsmark else s.curLen

def checksum (s : State) : Option State := do
  let covered ← s.read flagVersionField ((marked s + 2 ^ 64 - flagVersionField) % 2 ^ 64)
  let s ← s.memcpy crc32Field (leBytes 4 (crc32 covered))
  s.memcpy lenField (leBytes 4 (marked s))

/-- fwrite of no bytes returns 0. -/
def output (s : State) (writes : Bool) : Option Exit := do
  let out ← s.read 0 s.curLen
  if s.curLen = 0 ∨ writes = false then return .failure
  return .success out

/-- LOAD32_LE(p->offsets[3]). -/
def lastOffset (s : State) : Option ℕ := (s.read (offsetsField + 4 * 3) 4).map leValue

/-- What follows the round of the length: in version 2 the flags of the last image are all
ones while the checksum is taken. -/
def sealImage (s : State) (writes : Bool) : Option Exit :=
  if s.trxVersion = 2 then do
    let off ← lastOffset s
    if (s.curLen + 2 ^ 32 - off) % 2 ^ 32 < binheaderSize then return .failure
    let binheader ← s.read off binheaderSize
    let s ← s.memset (off + flagsField) flagsSize 0xff
    let s ← checksum s
    let off ← lastOffset s
    let s ← s.memcpy off binheader
    output s writes
  else do
    let s ← checksum s
    output s writes

def finish (s : State) (writes : Bool) : Option Exit := do
  let s ← s.memcpy flagVersionField (leBytes 4 (s.trxVersion <<< 16))
  if s.opened = false then return .failure
  let s ← roundUp s
  sealImage s writes

/-- main with what malloc returns, and whether the output can be written. -/
def main (malloc : Option Mem) (opts : List Opt) (writes : Bool) : Option Exit :=
  match malloc with
  | none => some .failure
  | some malloc =>
      match loop (start malloc) opts with
      | none => none
      | some .failure => some .failure
      | some (.next s) => finish s writes

/-- A file of the image, and where it is. -/
structure Placed where
  kind : Kind
  pos : ℕ
  bytes : List Byte

def Placed.file (f : Placed) : Kind × List Byte := (f.kind, f.bytes)

/-- The files that the options name, in their order. -/
def Opt.file? : Opt → Option (Kind × List Byte)
  | .file kind (some input) => some (kind, input.bytes)
  | _ => none

/-- Where the files are that have an offset in the header. -/
def positions (files : List Placed) : List ℕ :=
  (files.filter fun f => f.kind = .offset).map Placed.pos

/-- Where the last file with -F is, or zero. -/
def markOf (files : List Placed) : ℕ :=
  files.foldl (fun mark f => if f.kind = .mark then f.pos else mark) 0

/-- The offsets that a header of the version has, and its length. -/
def slots (version : ℕ) : ℕ := if version = 2 then 4 else 3

def headerLen (version : ℕ) : ℕ := offsetsField + 4 * slots version

def imageLen (files : List Placed) (out : List Byte) : ℕ :=
  if markOf files = 0 then out.length else markOf files

/-- What the checksum is about: in version 2 the flags of the last image are all ones. -/
def summed (version : ℕ) (files : List Placed) (out : List Byte) : List Byte :=
  if version = 2 then
    patch out ((positions files).getD 3 0 + flagsField) (List.replicate flagsSize 0xff)
  else out

structure Packed (version : ℕ) (files : List Placed) (out : List Byte) : Prop where
  flagVersion : field out flagVersionField 4 = version <<< 16
  len : field out lenField 4 = imageLen files out
  crc : field out crc32Field 4 =
    crc32 (segment (summed version files out) flagVersionField
      (imageLen files out - flagVersionField))
  count : (positions files).length ≤ slots version
  offsets : ∀ j < slots version,
    field out (offsetsField + 4 * j) 4 = (positions files).getD j 0
  inside : ∀ f ∈ files, f.pos + f.bytes.length ≤ out.length
  intact : ∀ f ∈ files, segment out f.pos f.bytes.length = f.bytes

/-- The tool stays in its buffer, and when it exits with success the output is packed from
the files of the options. -/
def Right (malloc : Mem) (opts : List Opt) (writes : Bool) : Prop :=
  ∃ exit, main (some malloc) opts writes = some exit ∧ ∀ out, exit = .success out →
    ∃ version files, files.map Placed.file = opts.filterMap Opt.file? ∧ Packed version files out

/-- The cursor can be at n. -/
def State.Fits (s : State) (n : ℕ) : Prop := n ≤ s.maxlen ∧ n < 2 ^ 32

/-- The option leaves the cursor in the buffer, and a file that is read has a place for its
offset. -/
def Room (s : State) : Opt → Prop
  | .file kind (some input) =>
      input.fails = false → input.bytes.length < s.maxlen - s.curLen →
        (kind = .offset → s.i < slots s.trxVersion) ∧
          s.Fits (s.curLen + (input.bytes.length + gap 4 input.bytes.length))
  | .maxlen (some n) (some _) => 0x1000 ≤ roundedMaxlen n → s.curLen ≤ roundedMaxlen n
  | .align (some n) =>
      unaligned s.curLen n.toNat ≠ 0 → s.Fits (s.curLen + alignGap s.curLen n.toNat)
  | .absolute (some n) => s.Fits n.toNat
  | _ => True

/-- Every option of the run has its room. -/
def Roomy : State → List Opt → Prop
  | _, [] => True
  | s, o :: opts => Room s o ∧ ∀ t, step s o = some (.next t) → Roomy t opts

/-- The end of the output fits too, version 2 has its four offsets, and for version 1 the
memory from malloc is zero where an offset is not used. -/
structure Finishes (malloc : Mem) (s : State) : Prop where
  round : s.curLen + gap 0x1000 s.curLen < 2 ^ 32
  four : s.trxVersion = 2 → s.i = slots 2
  unused : s.trxVersion ≠ 2 → ∀ k, offsetsField + 4 * s.i ≤ k → k < v1Header → malloc k = 0

theorem slice_bytesMem (bytes : List Byte) : slice (bytesMem bytes) 0 bytes.length = bytes := by
  refine List.ext_getElem ?_ fun i hi hi' => ?_
  · rw [slice_length, Nat.sub_zero]
  · rw [slice_getElem, Nat.zero_add, bytesMem, List.getD_eq_getElem bytes 0 hi']

theorem gap_eq (k n : ℕ) : gap (2 ^ k) n = (2 ^ k - n % 2 ^ k) % 2 ^ k := by
  have hpos : 0 < 2 ^ k := Nat.two_pow_pos k
  have hlt : n % 2 ^ k < 2 ^ k := Nat.mod_lt n hpos
  unfold gap
  rw [Nat.and_two_pow_sub_one_eq_mod]
  split
  · rename_i hzero
    rw [hzero, Nat.sub_zero, Nat.mod_self]
  · exact (Nat.mod_eq_of_lt (by omega)).symm

theorem gap_lt (k n : ℕ) : gap (2 ^ k) n < 2 ^ k := by
  rw [gap_eq]
  exact Nat.mod_lt _ (Nat.two_pow_pos k)

theorem dvd_add_gap (k n : ℕ) : 2 ^ k ∣ n + gap (2 ^ k) n := by
  have hlt : n % 2 ^ k < 2 ^ k := Nat.mod_lt n (Nat.two_pow_pos k)
  apply Nat.dvd_of_mod_eq_zero
  rw [gap_eq, Nat.add_mod_mod, Nat.add_mod]
  rcases Nat.eq_zero_or_pos (n % 2 ^ k) with hzero | hpos
  · rw [hzero, Nat.sub_zero, Nat.mod_self, Nat.add_zero, Nat.zero_mod]
  · rw [Nat.mod_eq_of_lt (by omega : 2 ^ k - n % 2 ^ k < 2 ^ k), Nat.add_sub_of_le hlt.le,
      Nat.mod_self]

/-- A multiple that is not less is not less than the next one. -/
theorem add_gap_le {k n m : ℕ} (h : n ≤ m) (hm : 2 ^ k ∣ m) : n + gap (2 ^ k) n ≤ m := by
  by_contra hlt
  have hdvd : 2 ^ k ∣ n + gap (2 ^ k) n - m := Nat.dvd_sub (dvd_add_gap k n) hm
  have hle : 2 ^ k ≤ n + gap (2 ^ k) n - m := Nat.le_of_dvd (by omega) hdvd
  have hgap : gap (2 ^ k) n < 2 ^ k := gap_lt k n
  omega

theorem dvd_roundedMaxlen (n : BitVec 64) : 2 ^ 12 ∣ roundedMaxlen n :=
  (Nat.dvd_mod_iff (Nat.pow_dvd_pow 2 (by omega))).mpr (dvd_add_gap 12 n.toNat)

section

variable {s : State} {off n : ℕ}

theorem State.memcpy_of_le {bytes : List Byte} (h : off + bytes.length ≤ s.maxlen) :
    s.memcpy off bytes =
      some { s with buf := s.buf.copy off bytes.length (bytesMem bytes) } := if_pos (Or.inr h)

theorem State.store_of_le (h : off + 4 ≤ s.maxlen) (v : ℕ) :
    s.memcpy off (leBytes 4 v) =
      some { s with buf := s.buf.copy off 4 (bytesMem (leBytes 4 v)) } := by
  have hlen := leBytes_length 4 v
  rw [State.memcpy_of_le (by rwa [hlen]), hlen]

theorem State.memset_of_le (h : off + n ≤ s.maxlen) (b : Byte) :
    s.memset off n b = some { s with buf := s.buf.fill off n b } := if_pos (Or.inr h)

theorem State.read_of_le (h : off + n ≤ s.maxlen) :
    s.read off n = some (slice s.buf off (off + n)) := if_pos (Or.inr h)

end

/-- A file is where it was put, behind the header unless it is empty. -/
structure Intact (s : State) (f : Placed) : Prop where
  lo : v1Header ≤ f.pos
  behind : headerLen s.trxVersion ≤ f.pos ∨ f.bytes = []
  hi : f.pos + f.bytes.length ≤ s.curLen
  bytes : slice s.buf f.pos (f.pos + f.bytes.length) = f.bytes

/-- What holds between two options of the run, with the files that were put so far. -/
structure Inv (malloc : Mem) (files : List Placed) (s : State) : Prop where
  round : 2 ^ 12 ∣ s.maxlen
  long : s.maxlen < 2 ^ 64
  fits : s.Fits s.curLen
  version : s.trxVersion = 1 ∨ s.trxVersion = 2
  header : headerLen s.trxVersion ≤ s.curLen
  count : (positions files).length = s.i
  slot : s.i ≤ slots s.trxVersion
  entries : ∀ j p, (positions files)[j]? = some p →
    slice s.buf (offsetsField + 4 * j) (offsetsField + 4 * j + 4) = leBytes 4 p
  unused : ∀ k, offsetsField + 4 * s.i ≤ k → k < v1Header → s.buf k = malloc k
  intact : ∀ f ∈ files, Intact s f
  mark : s.fsmark = markOf files

theorem slots_le (version : ℕ) : 3 ≤ slots version ∧ slots version ≤ 4 := by
  unfold slots
  split
  · exact ⟨by omega, le_refl 4⟩
  · exact ⟨le_refl 3, by omega⟩

theorem v1Header_le (version : ℕ) : v1Header ≤ headerLen version := by
  have h := (slots_le version).1
  show 28 ≤ 16 + 4 * slots version
  omega

section

variable {files : List Placed}

theorem positions_append (files : List Placed) (f : Placed) :
    positions (files ++ [f]) = positions files ++ if f.kind = .offset then [f.pos] else [] := by
  unfold positions
  rw [List.filter_append, List.map_append]
  congr 1
  by_cases h : f.kind = .offset
  · simp [h]
  · simp [h]

theorem markOf_append (files : List Placed) (f : Placed) :
    markOf (files ++ [f]) = if f.kind = .mark then f.pos else markOf files := by
  unfold markOf
  rw [List.foldl_append]
  rfl

theorem mem_positions {p : ℕ} (h : p ∈ positions files) : ∃ f ∈ files, f.pos = p := by
  obtain ⟨f, hf, rfl⟩ := List.mem_map.mp h
  exact ⟨f, (List.mem_filter.mp hf).1, rfl⟩

theorem markOf_mem (files : List Placed) :
    markOf files = 0 ∨ ∃ f ∈ files, f.pos = markOf files := by
  induction files using List.reverseRecOn with
  | nil => exact Or.inl rfl
  | append_singleton files f ih =>
    rw [markOf_append]
    split
    · exact Or.inr ⟨f, by simp, rfl⟩
    · rcases ih with hzero | ⟨g, hg, hpos⟩
      · exact Or.inl hzero
      · exact Or.inr ⟨g, by simp [hg], hpos⟩

end

section

variable {malloc : Mem} {files : List Placed} {s t : State}

theorem start_inv (malloc : Mem) : Inv malloc [] (start malloc) where
  round := ⟨0x720, rfl⟩
  long := show trxMaxLen < 2 ^ 64 by decide
  fits := show v1Header ≤ trxMaxLen ∧ v1Header < 2 ^ 32 by decide
  version := Or.inl rfl
  header := le_refl 28
  count := rfl
  slot := Nat.zero_le _
  entries := by
    intro j p h
    exact absurd h (by simp [positions])
  unused := by
    intro k hk _
    have hmagic : 0 + 4 ≤ k := le_trans (show 4 ≤ offsetsField + 4 * 0 by decide) hk
    exact Mem.copy_outside malloc _ (Or.inr hmagic)
  intact := by
    intro f hf
    exact absurd hf List.not_mem_nil
  mark := rfl

/-- The bytes in front of the cursor carry the invariant. -/
theorem Inv.grow (h : Inv malloc files s) (hbuf : ∀ x < s.curLen, t.buf x = s.buf x)
    (hround : 2 ^ 12 ∣ t.maxlen) (hlong : t.maxlen < 2 ^ 64) (hle : s.curLen ≤ t.curLen)
    (hfits : t.Fits t.curLen) (hi : t.i = s.i) (hversion : t.trxVersion = s.trxVersion)
    (hmark : t.fsmark = s.fsmark) : Inv malloc files t where
  round := hround
  long := hlong
  fits := hfits
  version := by
    rw [hversion]
    exact h.version
  header := by
    rw [hversion]
    exact h.header.trans hle
  count := h.count.trans hi.symm
  slot := by
    rw [hi, hversion]
    exact h.slot
  entries := by
    intro j p hj
    have hlt : j < s.i := by
      rw [← h.count]
      exact (List.getElem?_eq_some_iff.mp hj).1
    have hend : offsetsField + 4 * j + 4 ≤ s.curLen := by
      have hheader : 16 + 4 * slots s.trxVersion ≤ s.curLen := h.header
      have hslot := h.slot
      show 16 + 4 * j + 4 ≤ s.curLen
      omega
    rw [← h.entries j p hj]
    exact slice_congr fun x _ hx => hbuf x (by omega)
  unused := by
    intro k hk hlt
    have hheader := (v1Header_le s.trxVersion).trans h.header
    rw [hi] at hk
    rw [hbuf k (by omega), h.unused k hk hlt]
  intact := by
    intro f hf
    obtain ⟨hlo, hbehind, hhi, hbytes⟩ := h.intact f hf
    refine ⟨hlo, ?_, hhi.trans hle, ?_⟩
    · rwa [hversion]
    · rw [slice_congr fun x _ hx => hbuf x (by omega), hbytes]
  mark := hmark.trans h.mark

/-- The cursor is stored as the next offset. -/
def recorded (s : State) : State :=
  { s with
    buf := s.buf.copy (offsetsField + 4 * s.i) 4 (bytesMem (leBytes 4 s.curLen))
    i := s.i + 1 }

theorem record_eq (hroom : offsetsField + 4 * s.i + 4 ≤ s.maxlen) :
    record s .offset = some (recorded s) := by
  rw [record, State.store_of_le hroom]
  rfl

/-- The offset of the next file is in the header, so no file is damaged. -/
theorem Inv.record_offset (h : Inv malloc files s) (hslot : s.i < slots s.trxVersion) :
    Inv malloc (files ++ [⟨.offset, s.curLen, []⟩]) (recorded s) where
  round := h.round
  long := h.long
  fits := h.fits
  version := h.version
  header := h.header
  count := by
    rw [positions_append, if_pos rfl, List.length_append, h.count]
    rfl
  slot := hslot
  entries := by
    intro j p hj
    rw [positions_append, if_pos rfl, List.getElem?_append] at hj
    have hcount := h.count
    split at hj
    · rename_i hlt
      rw [← h.entries j p hj]
      exact slice_congr fun x _ hx => Mem.copy_outside _ _ (Or.inl (by omega))
    · obtain ⟨hlast, rfl⟩ := List.getElem?_eq_some_iff.mp hj
      obtain rfl : j = s.i := by
        rw [List.length_singleton] at hlast
        omega
      rw [List.getElem_singleton]
      exact (slice_copy _ _ _ 4).trans (slice_bytesMem (leBytes 4 s.curLen))
  unused := by
    intro k (hk : offsetsField + 4 * (s.i + 1) ≤ k) hlt
    rw [← h.unused k (by omega) hlt]
    exact Mem.copy_outside _ _ (Or.inr (by omega))
  intact := by
    intro f hf
    have hheader := h.header
    rcases List.mem_append.mp hf with hf | hf
    · obtain ⟨hlo, hbehind, hhi, hbytes⟩ := h.intact f hf
      refine ⟨hlo, hbehind, hhi, ?_⟩
      rcases hbehind with hpos | hnil
      · have hslots : offsetsField + 4 * slots s.trxVersion ≤ f.pos := hpos
        refine Eq.trans (slice_congr fun x hx _ => ?_) hbytes
        exact Mem.copy_outside _ _ (Or.inr (by omega))
      · rw [hnil]
        exact slice_empty _ (le_refl _)
    · obtain rfl := List.mem_singleton.mp hf
      refine ⟨(v1Header_le _).trans hheader, Or.inl hheader, le_refl _, ?_⟩
      exact slice_empty _ (le_refl _)
  mark := by
    rw [markOf_append]
    exact h.mark

/-- An empty file at the cursor, without an offset. -/
theorem Inv.put_empty (h : Inv malloc files s) {kind : Kind} (hkind : kind ≠ .offset) :
    Inv malloc (files ++ [⟨kind, s.curLen, []⟩])
      { s with fsmark := if kind = .mark then s.curLen else s.fsmark } where
  round := h.round
  long := h.long
  fits := h.fits
  version := h.version
  header := h.header
  count := by
    rw [positions_append, if_neg hkind, List.append_nil]
    exact h.count
  slot := h.slot
  entries := by
    rw [positions_append, if_neg hkind, List.append_nil]
    exact h.entries
  unused := h.unused
  intact := by
    intro f hf
    rcases List.mem_append.mp hf with hf | hf
    · obtain ⟨hlo, hbehind, hhi, hbytes⟩ := h.intact f hf
      exact ⟨hlo, hbehind, hhi, hbytes⟩
    · obtain rfl := List.mem_singleton.mp hf
      refine ⟨(v1Header_le _).trans h.header, Or.inl h.header, le_refl _, ?_⟩
      exact slice_empty _ (le_refl _)
  mark := by
    rw [markOf_append, ← h.mark]

/-- The last file gets its bytes. -/
theorem Inv.put_bytes {f : Placed} (h : Inv malloc (files ++ [⟨f.kind, f.pos, []⟩]) s)
    (hpos : headerLen s.trxVersion ≤ f.pos) (hhi : f.pos + f.bytes.length ≤ s.curLen)
    (hbytes : slice s.buf f.pos (f.pos + f.bytes.length) = f.bytes) :
    Inv malloc (files ++ [f]) s where
  round := h.round
  long := h.long
  fits := h.fits
  version := h.version
  header := h.header
  count := by
    have hcount := h.count
    rw [positions_append] at hcount ⊢
    exact hcount
  slot := h.slot
  entries := by
    have hentries := h.entries
    rw [positions_append] at hentries ⊢
    exact hentries
  unused := h.unused
  intact := by
    intro g hg
    rcases List.mem_append.mp hg with hg | hg
    · exact h.intact g (List.mem_append_left _ hg)
    · obtain rfl := List.mem_singleton.mp hg
      exact ⟨(v1Header_le _).trans hpos, Or.inl hpos, hhi, hbytes⟩
  mark := by
    have hmark := h.mark
    rw [markOf_append] at hmark ⊢
    exact hmark

theorem Inv.page_le (h : Inv malloc files s) : 2 ^ 12 ≤ s.maxlen := by
  have hcur : s.curLen ≤ s.maxlen := h.fits.1
  have hheader : 28 ≤ s.curLen := (v1Header_le s.trxVersion).trans h.header
  exact Nat.le_of_dvd (by omega) h.round

theorem record_inside (h : Inv malloc files s) (kind : Kind) :
    ∃ t, record s kind = some t ∧ t.curLen = s.curLen ∧ t.maxlen = s.maxlen ∧
      t.trxVersion = s.trxVersion ∧ ((kind = .offset → s.i < slots s.trxVersion) →
        Inv malloc (files ++ [⟨kind, s.curLen, []⟩]) t) := by
  cases kind with
  | offset =>
    have hroom : offsetsField + 4 * s.i + 4 ≤ s.maxlen := by
      have hpage := h.page_le
      have hslot := h.slot.trans (slots_le s.trxVersion).2
      show 16 + 4 * s.i + 4 ≤ s.maxlen
      omega
    exact ⟨recorded s, record_eq hroom, rfl, rfl, rfl, fun hslot => h.record_offset (hslot rfl)⟩
  | append => exact ⟨s, rfl, rfl, rfl, rfl, fun _ => h.put_empty nofun⟩
  | mark =>
    refine ⟨{ s with fsmark := s.curLen }, rfl, rfl, rfl, rfl, fun _ => ?_⟩
    exact h.put_empty nofun

theorem capacity_eq (hcur : s.curLen ≤ s.maxlen) (hlong : s.maxlen < 2 ^ 64) :
    capacity s = s.maxlen - s.curLen := by
  unfold capacity
  omega

/-- What a file that is read leaves. -/
def readState (s : State) (bytes : List Byte) : State :=
  { s with
    buf := (s.buf.copy s.curLen bytes.length (bytesMem bytes)).fill (s.curLen + bytes.length)
      (gap 4 bytes.length) 0
    curLen := s.curLen + (bytes.length + gap 4 bytes.length)
    opened := true }

theorem readFile_failure (hcur : s.curLen ≤ s.maxlen) (hlong : s.maxlen < 2 ^ 64) {input : Input}
    (hfail : input.fails = true ∨ input.bytes.length ≥ s.maxlen - s.curLen) :
    readFile s input = some .failure := by
  have hread : s.curLen + (input.bytes.take (s.maxlen - s.curLen)).length ≤ s.maxlen := by
    rw [List.length_take]
    omega
  simp only [readFile, capacity_eq hcur hlong, State.memcpy_of_le hread, Option.bind_eq_bind,
    Option.bind_some, if_pos hfail]
  rfl

theorem readFile_next (hcur : s.curLen ≤ s.maxlen) (hlong : s.maxlen < 2 ^ 64) {input : Input}
    (hok : input.fails = false) (hlt : input.bytes.length < s.maxlen - s.curLen)
    (hfits : s.Fits (s.curLen + (input.bytes.length + gap 4 input.bytes.length))) :
    readFile s input = some (.next (readState s input.bytes)) := by
  obtain ⟨hmax, hword⟩ := hfits
  have hfail : ¬(input.fails = true ∨ input.bytes.length ≥ s.maxlen - s.curLen) := by
    rintro (hfails | hge)
    · exact Bool.noConfusion (hok.symm.trans hfails)
    · omega
  have hread : s.curLen + input.bytes.length ≤ s.maxlen := by omega
  have hzero : s.curLen + input.bytes.length + gap 4 input.bytes.length ≤ s.maxlen := by omega
  simp only [readFile, capacity_eq hcur hlong, List.take_of_length_le hlt.le,
    State.memcpy_of_le hread, Option.bind_eq_bind, Option.bind_some, if_neg hfail,
    State.memset_of_le
      (s := { s with buf := s.buf.copy s.curLen input.bytes.length (bytesMem input.bytes) }) hzero,
    Nat.mod_eq_of_lt hword]
  rfl

theorem readState_inv {kind : Kind} {bytes : List Byte}
    (h : Inv malloc (files ++ [⟨kind, s.curLen, []⟩]) s)
    (hfits : s.Fits (s.curLen + (bytes.length + gap 4 bytes.length))) :
    Inv malloc (files ++ [⟨kind, s.curLen, bytes⟩]) (readState s bytes) := by
  have hbuf : ∀ x < s.curLen + bytes.length, (readState s bytes).buf x =
      s.buf.copy s.curLen bytes.length (bytesMem bytes) x :=
    fun x hx => Mem.fill_outside _ _ (Or.inl hx)
  have hgrown : Inv malloc (files ++ [⟨kind, s.curLen, []⟩]) (readState s bytes) := by
    refine h.grow (fun x hx => ?_) h.round h.long (Nat.le_add_right _ _) hfits rfl rfl rfl
    rw [hbuf x (Nat.lt_add_right _ hx)]
    exact Mem.copy_outside _ _ (Or.inl hx)
  refine hgrown.put_bytes (f := ⟨kind, s.curLen, bytes⟩) h.header ?_ ?_
  · show s.curLen + bytes.length ≤ s.curLen + (bytes.length + gap 4 bytes.length)
    omega
  · exact (slice_congr fun x _ hx => hbuf x hx).trans
      ((slice_copy _ _ _ _).trans (slice_bytesMem bytes))

end

/-- There is a result, and the next state holds the new files too. -/
def Kept (malloc : Mem) (files : List Placed) (new : List (Kind × List Byte))
    (result : Option After) : Prop :=
  ∃ after, result = some after ∧ ∀ t, after = .next t →
    ∃ placed : List Placed, placed.map Placed.file = new ∧ Inv malloc (files ++ placed) t

section

variable {malloc : Mem} {files : List Placed} {s t : State}

theorem Kept.failure {new : List (Kind × List Byte)} : Kept malloc files new (some .failure) :=
  ⟨.failure, rfl, fun _ h => After.noConfusion h⟩

theorem Kept.next (h : Inv malloc files t) : Kept malloc files [] (some (.next t)) := by
  refine ⟨.next t, rfl, fun t' ht => ⟨[], rfl, ?_⟩⟩
  rw [← After.next.inj ht, List.append_nil]
  exact h

/-- Behind an empty version 1 header there are empty files at most. -/
theorem Inv.version2 (h : Inv malloc files s) (hcur : s.curLen = v1Header) :
    Inv malloc files { s with trxVersion := 2, curLen := s.curLen + 4 } where
  round := h.round
  long := h.long
  fits := by
    have hpage := h.page_le
    rw [hcur]
    show 32 ≤ s.maxlen ∧ 32 < 2 ^ 32
    omega
  version := Or.inr rfl
  header := by
    rw [hcur]
    exact le_refl 32
  count := h.count
  slot := h.slot.trans (slots_le s.trxVersion).2
  entries := h.entries
  unused := h.unused
  intact := by
    intro f hf
    obtain ⟨hlo, _, hhi, hbytes⟩ := h.intact f hf
    have hlen : f.bytes.length = 0 := by omega
    refine ⟨hlo, Or.inr (List.eq_nil_of_length_eq_zero hlen), ?_, hbytes⟩
    exact hhi.trans (Nat.le_add_right s.curLen 4)
  mark := h.mark

theorem version2_inv (h : Inv malloc files s) : Inv malloc files (version2 s) := by
  unfold version2
  split
  · exact h.version2 ‹_›
  · exact h

theorem addFile_kept (h : Inv malloc files s) {kind : Kind} {input : Option Input}
    (hroom : Room s (.file kind input)) :
    Kept malloc files (Opt.file? (.file kind input)).toList (addFile s kind input) := by
  obtain ⟨t, ht, hcur, hmax, hversion, hinv⟩ := record_inside h kind
  rw [addFile, ht, Option.bind_eq_bind, Option.bind_some]
  cases input with
  | none => exact Kept.failure
  | some input =>
    have hroom : input.fails = false → input.bytes.length < t.maxlen - t.curLen →
        (kind = .offset → s.i < slots s.trxVersion) ∧
          t.Fits (t.curLen + (input.bytes.length + gap 4 input.bytes.length)) := by
      unfold State.Fits
      rw [hcur, hmax]
      exact hroom
    have hle : t.curLen ≤ t.maxlen := by
      rw [hcur, hmax]
      exact h.fits.1
    have hlong : t.maxlen < 2 ^ 64 := by
      rw [hmax]
      exact h.long
    dsimp only
    by_cases hfail : input.fails = true ∨ input.bytes.length ≥ t.maxlen - t.curLen
    · rw [readFile_failure hle hlong hfail]
      exact Kept.failure
    have hok : input.fails = false := Bool.eq_false_iff.mpr (not_or.mp hfail).1
    have hlt : input.bytes.length < t.maxlen - t.curLen := Nat.lt_of_not_le (not_or.mp hfail).2
    obtain ⟨hslot, hfits⟩ := hroom hok hlt
    rw [readFile_next hle hlong hok hlt hfits]
    have hempty := hinv hslot
    rw [← hcur] at hempty
    refine ⟨_, rfl, fun u hu => ⟨[⟨kind, t.curLen, input.bytes⟩], rfl, ?_⟩⟩
    rw [← After.next.inj hu]
    exact readState_inv hempty hfits

/-- Zeros up to a later place of the cursor. -/
theorem Inv.pad (h : Inv malloc files s) {n : ℕ} (hle : s.curLen ≤ n) (hfits : s.Fits n) :
    Inv malloc files
      { s with buf := s.buf.fill s.curLen (n - s.curLen) 0, curLen := n } :=
  h.grow (fun _ hx => Mem.fill_outside _ _ (Or.inl hx)) h.round h.long hle hfits rfl rfl rfl

theorem align_kept (h : Inv malloc files s) {n : ℕ}
    (hroom : unaligned s.curLen n ≠ 0 → s.Fits (s.curLen + alignGap s.curLen n)) :
    Kept malloc files [] (align s n) := by
  unfold align
  split
  · exact Kept.next h
  · rename_i hrest
    obtain ⟨hmax, hword⟩ := hroom hrest
    have hpad := h.pad (Nat.le_add_right _ (alignGap s.curLen n)) ⟨hmax, hword⟩
    rw [Nat.add_sub_cancel_left] at hpad
    simp only [State.memset_of_le hmax, Option.bind_eq_bind, Option.bind_some,
      Nat.mod_eq_of_lt hword]
    exact Kept.next hpad

theorem absolute_kept (h : Inv malloc files s) {n : ℕ} (hroom : s.Fits n) :
    Kept malloc files [] (absolute s n) := by
  unfold absolute
  split
  · exact Kept.next h
  · have hle : s.curLen ≤ n := Nat.le_of_not_lt ‹_›
    have hmax : s.curLen + (n - s.curLen) ≤ s.maxlen := by
      rw [Nat.add_sub_of_le hle]
      exact hroom.1
    rw [State.memset_of_le hmax]
    simp only [Option.bind_eq_bind, Option.bind_some, Nat.mod_eq_of_lt hroom.2]
    exact Kept.next (h.pad hle hroom)

theorem setMaxlen_kept (h : Inv malloc files s) {n : BitVec 64} {fresh : Option Mem}
    (hroom : Room s (.maxlen (some n) fresh)) :
    Kept malloc files [] (some (setMaxlen s n fresh)) := by
  unfold setMaxlen
  dsimp only
  split
  · exact Kept.failure
  · rename_i hmin
    cases fresh with
    | none => exact Kept.failure
    | some fresh =>
      have hle : s.curLen ≤ roundedMaxlen n := hroom (Nat.le_of_not_lt hmin)
      have hcur : s.curLen ≤ s.maxlen := h.fits.1
      refine Kept.next (h.grow (fun x hx => ?_) (dvd_roundedMaxlen n) (Nat.mod_lt _ (by decide))
        (le_refl _) ⟨hle, h.fits.2⟩ rfl rfl rfl)
      exact Mem.copy_start _ _ (lt_min (hx.trans_le hcur) (hx.trans_le hle))

theorem step_kept (h : Inv malloc files s) {o : Opt} (hx : ∀ arg, o ≠ .relative arg)
    (hroom : Room s o) : Kept malloc files (Opt.file? o).toList (step s o) := by
  cases o with
  | version2 => exact Kept.next (version2_inv h)
  | file kind input => exact addFile_kept h hroom
  | outfile opens =>
    cases opens with
    | false => exact Kept.failure
    | true => exact Kept.next h
  | maxlen arg fresh =>
    cases arg with
    | none => exact Kept.failure
    | some n => exact setMaxlen_kept h hroom
  | align arg =>
    cases arg with
    | none => exact Kept.failure
    | some n => exact align_kept h hroom
  | absolute arg =>
    cases arg with
    | none => exact Kept.failure
    | some n => exact absolute_kept h hroom
  | relative arg => exact absurd rfl (hx arg)
  | unknown => exact Kept.failure

/-- Along a run with room, the files of its options are put one behind the other. -/
theorem loop_kept (opts : List Opt) (h : Inv malloc files s) (hx : ∀ arg, .relative arg ∉ opts)
    (hroom : Roomy s opts) : Kept malloc files (opts.filterMap Opt.file?) (loop s opts) := by
  induction opts generalizing files s with
  | nil => exact Kept.next h
  | cons o opts ih =>
    obtain ⟨hhead, htail⟩ := hroom
    have hxo : ∀ arg, o ≠ .relative arg :=
      fun arg heq => hx arg (heq ▸ List.mem_cons_self)
    have hxs : ∀ arg, .relative arg ∉ opts :=
      fun arg hmem => hx arg (List.mem_cons_of_mem o hmem)
    obtain ⟨after, hstep, hnext⟩ := step_kept h hxo hhead
    unfold loop
    rw [hstep]
    cases after with
    | failure => exact Kept.failure
    | next t =>
      obtain ⟨placed, hplaced, hinv⟩ := hnext t rfl
      obtain ⟨last, hloop, hlast⟩ := ih hinv hxs (htail t hstep)
      refine ⟨last, hloop, fun u hu => ?_⟩
      obtain ⟨rest, hrest, hinv'⟩ := hlast u hu
      refine ⟨placed ++ rest, ?_, ?_⟩
      · rw [List.map_append, hplaced, hrest, List.filterMap_cons]
        cases Opt.file? o with
        | none => rfl
        | some f => rfl
      · rwa [← List.append_assoc]

end

theorem segment_slice (m : Mem) {e off n : ℕ} (h : off + n ≤ e) :
    segment (slice m 0 e) off n = slice m off (off + n) := by
  apply List.ext_getElem?
  intro i
  rw [getElem?_segment, slice_getElem?, slice_getElem?, Nat.sub_zero, Nat.add_sub_cancel_left,
    Nat.zero_add]
  split
  · rw [if_pos (by omega)]
  · rfl

/-- What checksum stores. -/
def stamped (m : Mem) (crc len : ℕ) : Mem :=
  (m.copy crc32Field 4 (bytesMem (leBytes 4 crc))).copy lenField 4 (bytesMem (leBytes 4 len))

theorem stamped_behind (m : Mem) (crc len : ℕ) {x : ℕ} (hx : flagVersionField ≤ x) :
    stamped m crc len x = m x := by
  have hlen : lenField + 4 ≤ x := le_trans (by decide) hx
  have hcrc : crc32Field + 4 ≤ x := hx
  rw [stamped, Mem.copy_outside _ _ (Or.inr hlen), Mem.copy_outside _ _ (Or.inr hcrc)]

theorem stamped_len (m : Mem) (crc len : ℕ) :
    slice (stamped m crc len) lenField (lenField + 4) = leBytes 4 len :=
  (slice_copy _ _ lenField 4).trans (slice_bytesMem (leBytes 4 len))

theorem stamped_crc (m : Mem) (crc len : ℕ) :
    slice (stamped m crc len) crc32Field (crc32Field + 4) = leBytes 4 crc := by
  have hlen : ∀ x, crc32Field ≤ x → stamped m crc len x =
      m.copy crc32Field 4 (bytesMem (leBytes 4 crc)) x :=
    fun x hx => Mem.copy_outside _ _ (Or.inr hx)
  rw [slice_congr fun x hx _ => hlen x hx, slice_copy]
  exact slice_bytesMem (leBytes 4 crc)

/-- The restored binheader leaves nothing of the flags. -/
theorem stamped_restored (m : Mem) (crc len : ℕ) {off : ℕ} (hoff : flagVersionField ≤ off) :
    (stamped (m.fill (off + flagsField) flagsSize 0xff) crc len).copy off binheaderSize
      (bytesMem (slice m off (off + binheaderSize))) = stamped m crc len := by
  funext x
  by_cases hx : off ≤ x ∧ x < off + binheaderSize
  · obtain ⟨i, rfl⟩ := Nat.exists_eq_add_of_le hx.1
    have hi : i < binheaderSize := by omega
    rw [Mem.copy_inside _ _ hi, stamped_behind m crc len (by omega), bytesMem,
      List.getD_eq_getElem?_getD, slice_getElem?, Nat.add_sub_cancel_left, if_pos hi]
    rfl
  · have hflags : ∀ y, y = x → m.fill (off + flagsField) flagsSize 0xff y = m y := by
      rintro y rfl
      apply Mem.fill_outside
      show y < off + 22 ∨ off + 22 + 8 ≤ y
      have hx : ¬(off ≤ y ∧ y < off + 32) := hx
      omega
    rw [Mem.copy_outside _ _ (by omega)]
    unfold stamped Mem.copy
    rw [hflags x rfl]

theorem checksum_eq {s : State} (hlo : flagVersionField ≤ marked s) (hhi : marked s ≤ s.maxlen)
    (hword : marked s < 2 ^ 32) :
    checksum s = some { s with
      buf := stamped s.buf (crc32 (slice s.buf flagVersionField (marked s))) (marked s) } := by
  have hlen : (marked s + 2 ^ 64 - flagVersionField) % 2 ^ 64 = marked s - flagVersionField := by
    omega
  have hread : flagVersionField + (marked s - flagVersionField) ≤ s.maxlen := by omega
  have hcrc : crc32Field + 4 ≤ s.maxlen := hlo.trans hhi
  have hfield : lenField + 4 ≤ s.maxlen := le_trans (by decide) hcrc
  rw [checksum, hlen, State.read_of_le hread, Option.bind_eq_bind, Option.bind_some,
    State.store_of_le hcrc, Option.bind_eq_bind, Option.bind_some, Nat.add_sub_of_le hlo]
  apply State.store_of_le
  exact hfield

theorem output_eq {s : State} (hpos : 0 < s.curLen) (hcur : s.curLen ≤ s.maxlen) (writes : Bool) :
    output s writes = some (if writes then .success (slice s.buf 0 s.curLen) else .failure) := by
  have hread : 0 + s.curLen ≤ s.maxlen := by rwa [Nat.zero_add]
  rw [output, State.read_of_le hread, Nat.zero_add, Option.bind_eq_bind, Option.bind_some]
  cases writes with
  | false =>
    rw [if_pos (Or.inr rfl)]
    rfl
  | true =>
    have hne : ¬(s.curLen = 0 ∨ true = false) := by
      rintro (hzero | hfalse)
      · omega
      · exact Bool.noConfusion hfalse
    rw [if_neg hne]
    rfl

theorem lastOffset_eq {s : State} {off : ℕ} (hmax : headerLen 2 ≤ s.maxlen) (hoff : off < 2 ^ 32)
    (hslice : slice s.buf (offsetsField + 4 * 3) (offsetsField + 4 * 3 + 4) = leBytes 4 off) :
    lastOffset s = some off := by
  have hread : offsetsField + 4 * 3 + 4 ≤ s.maxlen := hmax
  rw [lastOffset, State.read_of_le hread, hslice, Option.map_some, leValue_leBytes,
    Nat.mod_eq_of_lt hoff]

theorem roundUp_eq {s : State} (hmax : s.curLen + gap 0x1000 s.curLen ≤ s.maxlen)
    (hword : s.curLen + gap 0x1000 s.curLen < 2 ^ 32) :
    roundUp s = some { s with
      buf := s.buf.fill s.curLen (gap 0x1000 s.curLen) 0
      curLen := s.curLen + gap 0x1000 s.curLen } := by
  simp only [roundUp, State.memset_of_le hmax, Option.bind_eq_bind, Option.bind_some,
    Nat.mod_eq_of_lt hword]
  rfl

section

variable {s : State} {off : ℕ}

/-- What the checksum of a rounded image covers. -/
def coveredMem (s : State) (off : ℕ) : Mem :=
  if s.trxVersion = 2 then s.buf.fill (off + flagsField) flagsSize 0xff else s.buf

def coveredCrc (s : State) (off : ℕ) : ℕ :=
  crc32 (slice (coveredMem s off) flagVersionField (marked s))

def sealed (s : State) (off : ℕ) : State :=
  { s with buf := stamped s.buf (coveredCrc s off) (marked s) }

/-- While the flags are all ones, and when the checksum is stored. -/
def flagged (s : State) (off : ℕ) : State :=
  { s with buf := s.buf.fill (off + flagsField) flagsSize 0xff }

def restorable (s : State) (off : ℕ) : State :=
  { s with buf := stamped (flagged s off).buf (coveredCrc s off) (marked s) }

theorem sealImage_v1 (hversion : s.trxVersion ≠ 2) (hlo : flagVersionField ≤ marked s)
    (hhi : marked s ≤ s.maxlen) (hword : marked s < 2 ^ 32) (off : ℕ) (writes : Bool) :
    sealImage s writes = output (sealed s off) writes := by
  rw [sealImage, if_neg hversion, checksum_eq hlo hhi hword, sealed, coveredCrc, coveredMem,
    if_neg hversion]
  rfl

theorem sealImage_short (hversion : s.trxVersion = 2) (hoff : lastOffset s = some off)
    (hle : off ≤ s.curLen) (hword : s.curLen < 2 ^ 32) (hshort : s.curLen < off + binheaderSize)
    (writes : Bool) : sealImage s writes = some .failure := by
  have hsmall : (s.curLen + 2 ^ 32 - off) % 2 ^ 32 < binheaderSize := by omega
  rw [sealImage, if_pos hversion, hoff, Option.bind_eq_bind, Option.bind_some, if_pos hsmall]
  rfl

theorem sealImage_v2 (hversion : s.trxVersion = 2) (hcur : s.curLen ≤ s.maxlen)
    (hword : s.curLen < 2 ^ 32) (hlo : flagVersionField ≤ marked s) (hhi : marked s ≤ s.curLen)
    (hslice : slice s.buf (offsetsField + 4 * 3) (offsetsField + 4 * 3 + 4) = leBytes 4 off)
    (hoff : v1Header ≤ off) (hlong : off + binheaderSize ≤ s.curLen) (writes : Bool) :
    sealImage s writes = output (sealed s off) writes := by
  have hbin : binheaderSize = 32 := rfl
  have hlast : lastOffset s = some off :=
    lastOffset_eq (show 32 ≤ s.maxlen by omega) (by omega) hslice
  have hsize : ¬(s.curLen + 2 ^ 32 - off) % 2 ^ 32 < binheaderSize := by omega
  have hread : off + binheaderSize ≤ s.maxlen := hlong.trans hcur
  have hflags : off + flagsField + flagsSize ≤ s.maxlen := by
    show off + 22 + 8 ≤ s.maxlen
    omega
  have hset : s.memset (off + flagsField) flagsSize 0xff = some (flagged s off) :=
    State.memset_of_le hflags 0xff
  have hsum : checksum (flagged s off) = some (restorable s off) := by
    rw [restorable, coveredCrc, coveredMem, if_pos hversion]
    exact checksum_eq (s := flagged s off) hlo (hhi.trans hcur) (hhi.trans_lt hword)
  have hagain : lastOffset (restorable s off) = some off := by
    refine lastOffset_eq (s := restorable s off) (show 32 ≤ s.maxlen by omega) (by omega) ?_
    rw [← hslice]
    refine slice_congr fun x hx hlt => (stamped_behind _ _ _ ?_).trans (Mem.fill_outside _ _ ?_)
    · exact le_trans (show flagVersionField ≤ offsetsField + 4 * 3 by decide) hx
    · left
      have hlt : x < 32 := hlt
      have hoff : 28 ≤ off := hoff
      show x < off + 22
      omega
  have hlen := slice_length s.buf off (off + binheaderSize)
  rw [Nat.add_sub_cancel_left] at hlen
  have hrestore : (restorable s off).memcpy off (slice s.buf off (off + binheaderSize)) =
      some (sealed s off) := by
    have hroom : off + (slice s.buf off (off + binheaderSize)).length ≤
        (restorable s off).maxlen := by
      rwa [hlen]
    have hbuf := stamped_restored s.buf (coveredCrc s off) (marked s)
      (le_trans (show flagVersionField ≤ v1Header by decide) hoff)
    rw [State.memcpy_of_le hroom, hlen, sealed, ← hbuf]
    rfl
  rw [sealImage, if_pos hversion, hlast, Option.bind_eq_bind, Option.bind_some, if_neg hsize,
    State.read_of_le hread, Option.bind_eq_bind, Option.bind_some, hset, Option.bind_eq_bind,
    Option.bind_some, hsum, Option.bind_some, hagain, Option.bind_some, hrestore, Option.bind_some]

end

/-- The image in front of the checksum: the version is stored and the length is round. -/
def rounded (s : State) : State :=
  { s with
    buf := (s.buf.copy flagVersionField 4 (bytesMem (leBytes 4 (s.trxVersion <<< 16)))).fill
      s.curLen (gap 0x1000 s.curLen) 0
    curLen := s.curLen + gap 0x1000 s.curLen }

section

variable {malloc : Mem} {files : List Placed} {s : State}

theorem Inv.rounded_le (h : Inv malloc files s) : (rounded s).curLen ≤ s.maxlen :=
  add_gap_le (k := 12) h.fits.1 h.round

/-- The mark is zero or behind the version 1 header, and not behind the cursor. -/
theorem Inv.mark_le (h : Inv malloc files s) :
    s.fsmark = 0 ∨ v1Header ≤ s.fsmark ∧ s.fsmark ≤ s.curLen := by
  rw [h.mark]
  rcases markOf_mem files with hzero | ⟨f, hf, hpos⟩
  · exact Or.inl hzero
  · have hlo := (h.intact f hf).lo
    have hhi := (h.intact f hf).hi
    rw [← hpos]
    exact Or.inr ⟨hlo, by omega⟩

theorem Inv.marked_le (h : Inv malloc files s) :
    flagVersionField ≤ marked (rounded s) ∧ marked (rounded s) ≤ (rounded s).curLen := by
  have hle : s.curLen ≤ (rounded s).curLen := Nat.le_add_right _ _
  have hheader : v1Header ≤ s.curLen := (v1Header_le s.trxVersion).trans h.header
  have hfields : flagVersionField ≤ v1Header := by decide
  rcases h.mark_le with hzero | ⟨hlo, hhi⟩
  · have hmarked : marked (rounded s) = (rounded s).curLen := if_neg (not_not.mpr hzero)
    rw [hmarked]
    exact ⟨by omega, le_refl _⟩
  · have hmarked : marked (rounded s) = s.fsmark := if_pos (show s.fsmark ≠ 0 by
      have hpos : 0 < v1Header := by decide
      omega)
    rw [hmarked]
    exact ⟨by omega, by omega⟩

/-- Between the version and the cursor the image is what was put there. -/
theorem rounded_buf {x : ℕ} (hlo : offsetsField ≤ x) (hhi : x < s.curLen) :
    (rounded s).buf x = s.buf x :=
  (Mem.fill_outside _ _ (Or.inl hhi)).trans (Mem.copy_outside _ _ (Or.inr hlo))

theorem sealed_slice {off n : ℕ} (k : ℕ) (hlo : offsetsField ≤ off) (hhi : off + n ≤ s.curLen) :
    slice (sealed (rounded s) k).buf off (off + n) = slice s.buf off (off + n) := by
  refine slice_congr fun x hx hlt => ?_
  have hfields : flagVersionField ≤ offsetsField := by decide
  exact (stamped_behind _ _ _ (by omega)).trans (rounded_buf (by omega) (by omega))

/-- The output of a state in which the options are done. -/
def outOf (s : State) (off : ℕ) : List Byte :=
  slice (sealed (rounded s) off).buf 0 (rounded s).curLen

theorem outOf_length (s : State) (off : ℕ) : (outOf s off).length = (rounded s).curLen :=
  slice_length _ 0 _

theorem field_outOf {off n : ℕ} (k : ℕ) (h : off + n ≤ (rounded s).curLen) :
    field (outOf s k) off n = leValue (slice (sealed (rounded s) k).buf off (off + n)) :=
  congrArg leValue (segment_slice _ h)

theorem flagVersion_outOf (hheader : v1Header ≤ s.curLen) (hversion : s.trxVersion <<< 16 < 2 ^ 32)
    (off : ℕ) : field (outOf s off) flagVersionField 4 = s.trxVersion <<< 16 := by
  have hcur : s.curLen ≤ (rounded s).curLen := Nat.le_add_right _ _
  have hbehind : flagVersionField + 4 ≤ s.curLen := le_trans (by decide) hheader
  have hbuf : ∀ x, flagVersionField ≤ x → x < flagVersionField + 4 →
      (sealed (rounded s) off).buf x = s.buf.copy flagVersionField 4
        (bytesMem (leBytes 4 (s.trxVersion <<< 16))) x := by
    intro x hx hlt
    exact (stamped_behind _ _ _ hx).trans (Mem.fill_outside _ _ (Or.inl (by omega)))
  have hbytes := slice_bytesMem (leBytes 4 (s.trxVersion <<< 16))
  rw [leBytes_length] at hbytes
  rw [field_outOf off (hbehind.trans hcur), slice_congr hbuf, slice_copy, hbytes, leValue_leBytes]
  exact Nat.mod_eq_of_lt hversion

theorem imageLen_outOf (h : Inv malloc files s) (off : ℕ) :
    imageLen files (outOf s off) = marked (rounded s) := by
  unfold imageLen marked
  rw [← h.mark, outOf_length, ite_not]
  rfl

/-- The checksum covers what the output says, but for the flags of the last image. -/
theorem segment_summed {off e : ℕ} (hoff : (positions files).getD 3 0 = off)
    (hlong : s.trxVersion = 2 → off + binheaderSize ≤ (rounded s).curLen)
    (hlo : flagVersionField ≤ e) (he : e ≤ (rounded s).curLen) :
    segment (summed s.trxVersion files (outOf s off)) flagVersionField (e - flagVersionField) =
      slice (coveredMem (rounded s) off) flagVersionField e := by
  have hout : ∀ x, flagVersionField ≤ x → x < e → (outOf s off)[x]? = some ((rounded s).buf x) := by
    intro x hx hlt
    unfold outOf
    rw [slice_getElem?, if_pos (by omega), Nat.zero_add]
    exact congrArg some (stamped_behind _ _ _ hx)
  apply List.ext_getElem?
  intro i
  rw [getElem?_segment, slice_getElem?]
  split
  · rename_i hi
    unfold summed coveredMem
    by_cases hversion : s.trxVersion = 2
    · have hinside : off + flagsField + (List.replicate flagsSize (0xff : Byte)).length ≤
          (outOf s off).length := by
        have hlong : off + 32 ≤ (rounded s).curLen := hlong hversion
        rw [outOf_length, List.length_replicate]
        show off + 22 + 8 ≤ (rounded s).curLen
        omega
      rw [if_pos hversion, if_pos (show (rounded s).trxVersion = 2 from hversion), hoff,
        getElem?_patch hinside, List.length_replicate]
      unfold Mem.fill
      split
      · rw [List.getElem?_replicate, if_pos (by omega)]
      · exact hout _ (Nat.le_add_right _ _) (by omega)
    · rw [if_neg hversion, if_neg (show ¬(rounded s).trxVersion = 2 from hversion)]
      exact hout _ (Nat.le_add_right _ _) (by omega)
  · rfl

theorem crc32_lt (bytes : List Byte) : crc32 bytes < 2 ^ 32 :=
  (Crc.updates Trx.poly 0xffffffff#32 bytes).isLt

/-- An offset that is not used is as malloc left it. -/
theorem field_unused (h : Inv malloc files s) (hend : Finishes malloc s) {j : ℕ}
    (hj : j < slots s.trxVersion) (hunused : s.i ≤ j) :
    leValue (slice s.buf (offsetsField + 4 * j) (offsetsField + 4 * j + 4)) = 0 := by
  have hversion : s.trxVersion ≠ 2 := by
    intro hversion
    have hfour := hend.four hversion
    rw [hversion] at hj
    omega
  have hslots : slots s.trxVersion = 3 := if_neg hversion
  apply leValue_eq_zero.mpr
  intro b hb
  obtain ⟨x, hx, hlt, rfl⟩ := mem_slice hb
  have hlast : x < v1Header := by
    have hlt : x < 16 + 4 * j + 4 := hlt
    show x < 28
    omega
  rw [h.unused x (by omega) hlast]
  exact hend.unused hversion x (by omega) hlast

theorem field_entry (h : Inv malloc files s) (hend : Finishes malloc s) {j : ℕ}
    (hj : j < slots s.trxVersion) :
    leValue (slice s.buf (offsetsField + 4 * j) (offsetsField + 4 * j + 4)) =
      (positions files).getD j 0 := by
  have hcount := h.count
  rw [List.getD_eq_getElem?_getD]
  by_cases hlt : j < (positions files).length
  · have hget := List.getElem?_eq_getElem hlt
    obtain ⟨f, hf, hpos⟩ := mem_positions (List.getElem_mem hlt)
    have hhi := (h.intact f hf).hi
    have hword := h.fits.2
    rw [h.entries j _ hget, leValue_leBytes, hget, Option.getD_some]
    exact Nat.mod_eq_of_lt (by omega)
  · rw [field_unused h hend hj (by omega), List.getElem?_eq_none (by omega)]
    rfl

theorem packed (h : Inv malloc files s) (hend : Finishes malloc s) {off : ℕ}
    (hoff : (positions files).getD 3 0 = off)
    (hlong : s.trxVersion = 2 → off + binheaderSize ≤ (rounded s).curLen) :
    Packed s.trxVersion files (outOf s off) := by
  obtain ⟨hlo, hhi⟩ := h.marked_le
  have hheader : v1Header ≤ s.curLen := (v1Header_le s.trxVersion).trans h.header
  have hcur : s.curLen ≤ (rounded s).curLen := Nat.le_add_right _ _
  have hword : (rounded s).curLen < 2 ^ 32 := hend.round
  have hfields : offsetsField ≤ v1Header := by decide
  have himage := imageLen_outOf h off
  refine
    { flagVersion := ?_
      len := ?_
      crc := ?_
      count := h.count.trans_le h.slot
      offsets := fun j hj => ?_
      inside := fun f hf => ?_
      intact := fun f hf => ?_ }
  · refine flagVersion_outOf hheader ?_ off
    rcases h.version with hversion | hversion
    · rw [hversion]
      decide
    · rw [hversion]
      decide
  · rw [field_outOf off (show lenField + 4 ≤ _ from le_trans (by decide) (hheader.trans hcur)),
      himage]
    refine (congrArg leValue (stamped_len _ _ _)).trans ?_
    rw [leValue_leBytes]
    exact Nat.mod_eq_of_lt (hhi.trans_lt hword)
  · rw [field_outOf off (show crc32Field + 4 ≤ _ from le_trans (by decide) (hheader.trans hcur)),
      himage, segment_summed hoff hlong hlo hhi]
    refine (congrArg leValue (stamped_crc _ _ _)).trans ?_
    rw [leValue_leBytes]
    exact Nat.mod_eq_of_lt (crc32_lt _)
  · have hend' : offsetsField + 4 * j + 4 ≤ s.curLen := by
      have hheader : offsetsField + 4 * slots s.trxVersion ≤ s.curLen := h.header
      omega
    rw [field_outOf off (hend'.trans hcur), sealed_slice off (Nat.le_add_right _ _) hend']
    exact field_entry h hend hj
  · rw [outOf_length]
    exact (h.intact f hf).hi.trans hcur
  · have hf := h.intact f hf
    exact (segment_slice _ (hf.hi.trans hcur)).trans
      ((sealed_slice off (hfields.trans hf.lo) hf.hi).trans hf.bytes)

theorem output_packed (h : Inv malloc files s) (hend : Finishes malloc s) {off : ℕ}
    (hoff : (positions files).getD 3 0 = off)
    (hlong : s.trxVersion = 2 → off + binheaderSize ≤ (rounded s).curLen) (writes : Bool) :
    ∃ exit, output (sealed (rounded s) off) writes = some exit ∧ ∀ out, exit = .success out →
      Packed s.trxVersion files out := by
  obtain ⟨hlo, hhi⟩ := h.marked_le
  have hpos : 0 < (rounded s).curLen := lt_of_lt_of_le (by decide) (hlo.trans hhi)
  refine ⟨_, output_eq (s := sealed (rounded s) off) hpos h.rounded_le writes, ?_⟩
  intro out hout
  split at hout
  · obtain rfl := Exit.success.inj hout
    exact packed h hend hoff hlong
  · exact Exit.noConfusion hout

theorem sealImage_packed (h : Inv malloc files s) (hend : Finishes malloc s) (writes : Bool) :
    ∃ exit, sealImage (rounded s) writes = some exit ∧ ∀ out, exit = .success out →
      Packed s.trxVersion files out := by
  obtain ⟨hlo, hhi⟩ := h.marked_le
  have hmax : (rounded s).curLen ≤ (rounded s).maxlen := h.rounded_le
  have hword : (rounded s).curLen < 2 ^ 32 := hend.round
  have hcur : s.curLen ≤ (rounded s).curLen := Nat.le_add_right _ _
  by_cases hversion : s.trxVersion = 2
  · have hlen : (positions files).length = 4 := h.count.trans (hend.four hversion)
    have hthree : 3 < (positions files).length := by omega
    have hget := List.getElem?_eq_getElem hthree
    have hentry := h.entries 3 _ hget
    obtain ⟨f, hf, hpos⟩ := mem_positions (List.getElem_mem hthree)
    have hfile := h.intact f hf
    rw [← hpos] at hget hentry
    have hoff : (positions files).getD 3 0 = f.pos := by
      rw [List.getD_eq_getElem?_getD, hget, Option.getD_some]
    have hle : f.pos ≤ s.curLen := by
      have hhi := hfile.hi
      omega
    have hheader : offsetsField + 4 * 3 + 4 ≤ s.curLen := by
      have hheader := h.header
      rw [hversion] at hheader
      exact hheader
    have hslice : slice (rounded s).buf (offsetsField + 4 * 3) (offsetsField + 4 * 3 + 4) =
        leBytes 4 f.pos := by
      rw [← hentry]
      exact slice_congr fun x hx hlt => rounded_buf (by omega) (by omega)
    by_cases hlong : f.pos + binheaderSize ≤ (rounded s).curLen
    · rw [sealImage_v2 (s := rounded s) hversion hmax hword hlo hhi hslice hfile.lo hlong]
      exact output_packed h hend hoff (fun _ => hlong) writes
    · have hlast : lastOffset (rounded s) = some f.pos :=
        lastOffset_eq (show 32 ≤ s.maxlen from hheader.trans (hcur.trans h.rounded_le))
          (hle.trans_lt h.fits.2) hslice
      rw [sealImage_short (s := rounded s) hversion hlast (hle.trans hcur) hword
        (Nat.lt_of_not_le hlong)]
      exact ⟨.failure, rfl, fun _ hout => Exit.noConfusion hout⟩
  · rw [sealImage_v1 (s := rounded s) hversion hlo (hhi.trans hmax) (hhi.trans_lt hword)
      ((positions files).getD 3 0)]
    exact output_packed h hend rfl (fun h2 => absurd h2 hversion) writes

theorem finish_eq (hpage : flagVersionField + 4 ≤ s.maxlen) (hopened : s.opened = true)
    (hmax : (rounded s).curLen ≤ s.maxlen) (hword : (rounded s).curLen < 2 ^ 32) (writes : Bool) :
    finish s writes = sealImage (rounded s) writes := by
  rw [finish, State.store_of_le hpage, Option.bind_eq_bind, Option.bind_some,
    if_neg (show ¬s.opened = false by simp [hopened]),
    roundUp_eq (by exact hmax) (by exact hword)]
  rfl

/-- The end of a run with room. -/
theorem finish_packed (h : Inv malloc files s) (hend : s.opened = true → Finishes malloc s)
    (writes : Bool) : ∃ exit, finish s writes = some exit ∧ ∀ out, exit = .success out →
      Packed s.trxVersion files out := by
  have hpage : flagVersionField + 4 ≤ s.maxlen := le_trans (by decide) h.page_le
  by_cases hopened : s.opened = true
  · rw [finish_eq hpage hopened h.rounded_le (hend hopened).round]
    exact sealImage_packed h (hend hopened) writes
  · rw [finish, State.store_of_le hpage, Option.bind_eq_bind, Option.bind_some]
    exact ⟨.failure, if_pos (Bool.not_eq_true _ |>.mp hopened), fun _ hout => Exit.noConfusion hout⟩

end

/-- In a run in which every option has its room and the end has its own, the tool stays in
its buffer, and a success means that the output is packed. -/
theorem trx_packs {malloc : Mem} {opts : List Opt} (hx : ∀ arg, .relative arg ∉ opts)
    (hroom : Roomy (start malloc) opts)
    (hend : ∀ s, loop (start malloc) opts = some (.next s) → s.opened = true →
      Finishes malloc s) (writes : Bool) : Right malloc opts writes := by
  obtain ⟨after, hloop, hnext⟩ := loop_kept opts (start_inv malloc) hx hroom
  cases after with
  | failure =>
    refine ⟨.failure, ?_, fun _ hout => Exit.noConfusion hout⟩
    simp only [main, hloop]
  | next s =>
    obtain ⟨files, hfiles, hinv⟩ := hnext s rfl
    rw [List.nil_append] at hinv
    obtain ⟨exit, hexit, hpacked⟩ := finish_packed hinv (hend s hloop) writes
    refine ⟨exit, ?_, fun out hout => ⟨s.trxVersion, files, hfiles, hpacked out hout⟩⟩
    simp only [main, hloop]
    exact hexit

theorem loop_cons {s t : State} {o : Opt} (hstep : step s o = some (.next t)) (opts : List Opt) :
    loop s (o :: opts) = loop t opts := by
  simp only [loop, hstep]

theorem roomy_cons {s t : State} {o : Opt} {opts : List Opt} (hstep : step s o = some (.next t))
    (hroom : Room s o) (hrest : Roomy t opts) : Roomy s (o :: opts) := by
  refine ⟨hroom, fun u hu => ?_⟩
  rw [hstep] at hu
  obtain rfl := After.next.inj (Option.some.inj hu)
  exact hrest

/-- A file with an offset that is read. -/
theorem step_offset {s : State} {input : Input} (hcur : s.curLen ≤ s.maxlen)
    (hlong : s.maxlen < 2 ^ 64) (hslot : offsetsField + 4 * s.i + 4 ≤ s.maxlen)
    (hok : input.fails = false) (hlt : input.bytes.length < s.maxlen - s.curLen)
    (hfits : s.Fits (s.curLen + (input.bytes.length + gap 4 input.bytes.length))) :
    step s (.file .offset (some input)) = some (.next (readState (recorded s) input.bytes)) := by
  rw [step, addFile, record_eq hslot, Option.bind_eq_bind, Option.bind_some]
  exact readFile_next (s := recorded s) hcur hlong hok hlt hfits

/-- A file of four bytes. -/
def smallFile : Opt := .file .offset (some ⟨[1, 2, 3, 4], false⟩)

def withSmall (s : State) : State := readState (recorded s) [1, 2, 3, 4]

theorem step_smallFile {s : State} (hmax : s.maxlen = trxMaxLen) (hcur : s.curLen < 100)
    (hi : s.i < 10) : step s smallFile = some (.next (withSmall s)) := by
  have hbig : trxMaxLen = 0x720000 := rfl
  have hgap : gap 4 4 = 0 := rfl
  apply step_offset
  · omega
  · omega
  · show 16 + 4 * s.i + 4 ≤ s.maxlen
    omega
  · rfl
  · show 4 < s.maxlen - s.curLen
    omega
  · show s.curLen + (4 + gap 4 4) ≤ s.maxlen ∧ s.curLen + (4 + gap 4 4) < 2 ^ 32
    omega

theorem trx_packs_two : Right (fun _ => 0) [smallFile, smallFile] true := by
  have hfirst := step_smallFile (s := start fun _ => 0) rfl (by decide) (by decide)
  have hsecond := step_smallFile (s := withSmall (start fun _ => 0)) rfl (by decide) (by decide)
  refine trx_packs (by simp [smallFile]) ?_ ?_ true
  · refine roomy_cons hfirst ?_ (roomy_cons hsecond ?_ trivial)
    · exact fun _ _ => ⟨fun _ => by decide, by decide, by decide⟩
    · exact fun _ _ => ⟨fun _ => by decide, by decide, by decide⟩
  · intro s hs _
    rw [loop_cons hfirst, loop_cons hsecond] at hs
    obtain rfl := After.next.inj (Option.some.inj hs)
    exact ⟨by decide, fun h => absurd h (by decide), fun _ _ _ _ => rfl⟩

theorem positions_length (files : List Placed) : (positions files).length =
    ((files.map Placed.file).filter fun f => f.1 = .offset).length := by
  rw [positions, List.length_map, List.filter_map, List.length_map]
  rfl

/-- With a version 1 header and no mark the tool succeeds, however many offsets it stored. -/
theorem version1_offsets {malloc : Mem} {opts : List Opt} {s : State}
    (hloop : loop (start malloc) opts = some (.next s)) (hversion : s.trxVersion = 1)
    (hopened : s.opened = true) (hmark : s.fsmark = 0) (hheader : v1Header ≤ s.curLen)
    (hmax : (rounded s).curLen ≤ s.maxlen) (hword : (rounded s).curLen < 2 ^ 32)
    (hright : Right malloc opts true) :
    ((opts.filterMap Opt.file?).filter fun f => f.1 = .offset).length ≤ 3 := by
  have hle : s.curLen ≤ (rounded s).curLen := Nat.le_add_right _ _
  have hmarked : marked (rounded s) = (rounded s).curLen := if_neg (not_not.mpr hmark)
  have hlo : flagVersionField ≤ marked (rounded s) := by
    rw [hmarked]
    exact le_trans (by decide) (hheader.trans hle)
  have hpage : flagVersionField + 4 ≤ s.maxlen :=
    le_trans (by decide) (hheader.trans (hle.trans hmax))
  have htwo : (rounded s).trxVersion ≠ 2 := by
    show s.trxVersion ≠ 2
    omega
  obtain ⟨exit, hmain, hgood⟩ := hright
  have hexit : main (some malloc) opts true = some (.success (outOf s 0)) := by
    simp only [main, hloop]
    rw [finish_eq hpage hopened hmax hword, sealImage_v1 htwo hlo (hmarked.le.trans hmax)
      (hmarked.trans_lt hword) 0]
    exact output_eq (s := sealed (rounded s) 0) (lt_of_lt_of_le (by decide) (hheader.trans hle))
      hmax true
  rw [hexit] at hmain
  obtain ⟨version, files, hfiles, hpacked⟩ := hgood _ (Option.some.inj hmain).symm
  have hflag := hpacked.flagVersion
  rw [flagVersion_outOf hheader (by rw [hversion]; decide), hversion, Nat.shiftLeft_eq,
    Nat.shiftLeft_eq] at hflag
  obtain rfl : version = 1 := by omega
  have hcount := hpacked.count
  rw [positions_length, hfiles] at hcount
  exact hcount

/-- A fourth file is put behind a header that ends in front of its offset. -/
theorem fourth_not_refused :
    ¬Right (fun _ => 0) [smallFile, smallFile, smallFile, smallFile] true := by
  intro hright
  have h1 := step_smallFile (s := start fun _ => 0) rfl (by decide) (by decide)
  have h2 := step_smallFile (s := withSmall (start fun _ => 0)) rfl (by decide) (by decide)
  have h3 := step_smallFile (s := withSmall (withSmall (start fun _ => 0))) rfl (by decide)
    (by decide)
  have h4 := step_smallFile (s := withSmall (withSmall (withSmall (start fun _ => 0)))) rfl
    (by decide) (by decide)
  have hloop := loop_cons h1 [smallFile, smallFile, smallFile]
  rw [loop_cons h2, loop_cons h3, loop_cons h4] at hloop
  have hcount := version1_offsets hloop rfl rfl rfl (by decide) (by decide) (by decide) hright
  exact absurd hcount (by decide)

end Iot7688.TrxPack
