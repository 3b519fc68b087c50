import Iot7688.Lib.Digits
import Iot7688.Lib.Fields
import Iot7688.Lib.Hex
import Mathlib.Data.List.SplitBy

/-!
The conversion of S-records by srec2bin. The length of a record is written over the bytes in
front of its data once it is known, so that the output file has a position. A long of the
host takes every length, and reads and writes of the files do not fail. An S5 line is taken
only if there was no S3 line.
-/
namespace Iot7688.Srec2bin

open Lib

abbrev Str := List Byte

def u32 (n : ℕ) : ℕ := n % 2 ^ 32

def newline : Byte := 0x0a
def carriage : Byte := 0x0d
def letterS : Byte := 0x53

/-- fOut: what is in the file, and the position. -/
structure OutFile where
  bytes : Str
  pos : ℕ

def OutFile.fwrite (f : OutFile) (d : Str) : OutFile := ⟨patch f.bytes f.pos d, f.pos + d.length⟩

/-- fseek back from the position; it fails in front of the file. -/
def OutFile.back (f : OutFile) (n : ℕ) : OutFile :=
  if n ≤ f.pos then { f with pos := f.pos - n } else f

/-- The static variables of the conversion. -/
structure Conv where
  fOut : OutFile
  recStart : Bool
  recLength : ℕ
  checkSum : ℕ
  addressCurrent : ℕ
  s1s2s3Total : ℕ

def binOut32 (c : Conv) (data : ℕ) : Conv := { c with fOut := c.fOut.fwrite (leBytes 4 data) }

def binOut8 (c : Conv) (data : Byte) : Conv :=
  { c with fOut := c.fOut.fwrite [data], recLength := u32 (c.recLength + 1) }

def binRecStart (c : Conv) (address : ℕ) : Conv :=
  let c := { c with recLength := 0, checkSum := address, recStart := true }
  binOut32 (binOut32 c c.recLength) address

def binRecEnd (c : Conv) : Conv :=
  if c.recStart then
    let recEnd := c.fOut.pos
    let c := { c with recStart := false, fOut := ((c.fOut.back c.recLength).back 4).back 4 }
    let c := binOut32 c c.recLength
    let c := { c with
      fOut := { c.fOut with pos := recEnd }
      checkSum := u32 (c.checkSum + c.recLength) }
    let c := { c with checkSum := u32 (2 ^ 32 - 1 - c.checkSum + 1) }
    binOut32 c c.checkSum
  else c

/-- A record is begun unless the address is the next one. -/
def binRecTurn (c : Conv) (address : ℕ) : Conv :=
  if address ≠ u32 (c.addressCurrent + 1) then binRecStart (binRecEnd c) address else c

def binRecOutProgramStart (c : Conv) (address : ℕ) : Conv :=
  { binRecTurn c address with addressCurrent := address }

def binRecOutByte (c : Conv) (address : ℕ) (data : Byte) : Conv :=
  let c := { binRecTurn c address with addressCurrent := address }
  binOut8 { c with checkSum := u32 (c.checkSum + data.toNat) } data

/-- A call of readline for a buffer of len bytes: rlen, the string and what is left of the
input. The block buffer in between only hands the bytes on. -/
def readline : Str → ℕ → ℕ → Str → Option (ℕ × Str × Str)
  | [], _, rlen, buf => if rlen ≠ 0 then some (rlen, buf, []) else none
  | b :: input, len, rlen, buf =>
      if b = newline then some (rlen, buf, input)
      else if 1 < len ∧ b ≠ carriage then readline input (len - 1) (rlen + 1) (buf ++ [b])
      else readline input len (rlen + 1) buf

def isxdigit (c : Byte) : Bool :=
  (0x30 ≤ c && c ≤ 0x39) || (0x41 ≤ c && c ≤ 0x46) || (0x61 ≤ c && c ≤ 0x66)

/-- What gh adds for a character. -/
def nibble (c : Byte) : ℕ :=
  let c := if 0x61 ≤ c ∧ c ≤ 0x7a then c &&& 0x5f else c
  if 0x30 ≤ c ∧ c ≤ 0x39 then c.toNat - 0x30
  else if 0x41 ≤ c ∧ c ≤ 0x46 then c.toNat - 0x37
  else 0

def gh (cp : Str) (nibs : ℕ) : ℕ := (cp.take nibs).foldl (fun j c => u32 (u32 (j * 16) + nibble c)) 0

def cksum : ℕ → Str → ℕ → ℕ
  | 0, _, sum => sum
  | count + 1, scp, sum => cksum count (scp.drop 2) (sum + gh scp 2)

def checksum (cp : Str) (count : ℕ) : Bool := cp.all isxdigit && cksum count cp count % 256 = 0xff

/-- The loop over the data of an S3 line. -/
def dataLoop : ℕ → Str → ℕ → Conv → Conv
  | 0, _, _, c => c
  | count + 1, p, adr, c =>
      dataLoop count (p.drop 2) (u32 (adr + 1)) (binRecOutByte c adr (gh p 2).toUInt8)

/-- The switch over the type of the line. -/
def srecType (ch : Byte) (count : ℕ) (p : Str) (c : Conv) : Bool × Conv :=
  if ch = 0x30 then
    if count < 3 then (false, c) else (decide (gh p 4 = 0), c)
  else if ch = 0x31 ∨ ch = 0x32 then (false, c)
  else if ch = 0x33 then
    if count < 5 then (false, c)
    else
      let c := dataLoop (count - 5) (p.drop 8) (gh p 8) c
      (true, { c with s1s2s3Total := u32 (c.s1s2s3Total + 1) })
  else if ch = 0x34 then (false, c)
  else if ch = 0x35 then
    if count < 3 then (false, c) else (decide (gh p 4 ||| c.s1s2s3Total = 0), c)
  else if ch = 0x36 then (false, c)
  else if ch = 0x37 then
    if count < 5 then (false, c)
    else if count - 4 ≠ 1 then (false, c)
    else (true, binRecOutProgramStart c (gh p 8))
  else if ch = 0x38 ∨ ch = 0x39 then (false, c)
  else (true, c)

def srecLine (line : Str) (c : Conv) : Bool × Conv :=
  match line with
  | [] => (false, c)
  | s :: p =>
      if s ≠ letterS then (false, c)
      else
        match p with
        | ch :: h :: l :: x :: p =>
            let count := gh (h :: l :: x :: p) 2
            let p := x :: p
            if count * 2 ≠ p.length then (false, c)
            else if ¬checksum p count then (false, c)
            else srecType ch count p c
        | _ => (false, c)

theorem readline_le {input buf text rest : Str} {len rlen n : ℕ}
    (h : readline input len rlen buf = some (n, text, rest)) : rest.length ≤ input.length := by
  induction input generalizing len rlen buf with
  | nil =>
    rw [readline] at h
    split at h
    · cases h
      exact le_rfl
    · cases h
  | cons b input ih =>
    rw [readline] at h
    rw [List.length_cons]
    split at h
    · cases h
      exact Nat.le_succ _
    · split at h
      · exact (ih h).trans (Nat.le_succ _)
      · exact (ih h).trans (Nat.le_succ _)

theorem readline_shorter {input buf text rest : Str} {len n : ℕ}
    (h : readline input len 0 buf = some (n, text, rest)) : rest.length < input.length := by
  cases input with
  | nil => cases h
  | cons b input =>
    rw [readline] at h
    rw [List.length_cons]
    refine Nat.lt_succ_of_le ?_
    split at h
    · cases h
      exact le_rfl
    · split at h
      · exact readline_le h
      · exact readline_le h

/-- The loop over the lines; a string ends at its first NUL. -/
def convert (input : Str) (c : Conv) : Bool × Conv :=
  match _h : readline input 256 0 [] with
  | none => (true, c)
  | some (_, buff, rest) =>
      let line := buff.takeWhile fun b => b ≠ 0
      if line ≠ [] then
        match srecLine line c with
        | (true, c) => convert rest c
        | (false, c) => (false, c)
      else convert rest c
termination_by input.length
decreasing_by all_goals exact readline_shorter _h

def tag (bigEndian : Bool) : ℕ := if bigEndian then 0xDEADBE42 else 0xFEEDFA42

/-- Whether no line was refused, and the output. -/
def srec2bin (bigEndian : Bool) (input : Str) : Bool × Str :=
  let c := binOut32 ⟨⟨[], 0⟩, false, 0, 0, 0xFFFFFFFF, 0⟩ (tag bigEndian)
  let r := convert input c
  (r.1, (binRecEnd r.2).fOut.bytes)

inductive Kind
  | s0
  | s3
  | s5
  | s7
deriving DecidableEq

def Kind.digit : Kind → Byte
  | .s0 => 0x30
  | .s3 => 0x33
  | .s5 => 0x35
  | .s7 => 0x37

/-- What the bytes behind the count are for a type: an address or a number, data, and the
check byte. -/
def Kind.Form : Kind → Str → Prop
  | .s0, body => 3 ≤ body.length ∧ body.take 2 = [0, 0]
  | .s3, body => 5 ≤ body.length
  | .s5, body => body.length = 3
  | .s7, body => body.length = 5

/-- A valid line that fits into the buffer. -/
structure Line where
  kind : Kind
  body : Str
  hex : Str
  digits : HexText hex (body.length.toUInt8 :: body)
  form : kind.Form body
  sum : (body.length + (body.map UInt8.toNat).sum) % 256 = 255
  fits : hex.length + 2 < 256

def Line.text (l : Line) : Str := letterS :: l.kind.digit :: l.hex

def Line.address (l : Line) : ℕ := beNumber (l.body.take 4)

/-- The number in an S5 line. -/
def Line.number (l : Line) : ℕ := beNumber (l.body.take 2)

/-- What a file is about: a byte at an address, or the start address. -/
inductive Event
  | byte (address : ℕ) (data : Byte)
  | start (address : ℕ)
deriving DecidableEq

def Event.address : Event → ℕ
  | .byte a _ => a
  | .start a => a

def Event.isByte : Event → Bool
  | .byte _ _ => true
  | .start _ => false

/-- The bytes from an address on; addresses wrap around. -/
def bytesFrom : ℕ → Str → List Event
  | _, [] => []
  | a, b :: bs => .byte a b :: bytesFrom (u32 (a + 1)) bs

def Line.events (l : Line) : List Event :=
  match l.kind with
  | .s3 => bytesFrom l.address (l.body.drop 4).dropLast
  | .s7 => [.start l.address]
  | _ => []

/-- Each S5 line has the number of the S3 lines in front of it, of which there are n before. -/
def Counted : ℕ → List Line → Prop
  | _, [] => True
  | n, l :: ls => (l.kind = .s5 → l.number = n) ∧ Counted (if l.kind = .s3 then n + 1 else n) ls

/-- Lines that end with a newline, some behind a carriage return, and maybe one without. -/
structure SrecFile where
  lines : List (Line × Bool)
  last : Option Line
  counted : Counted 0 (lines.map Prod.fst ++ last.toList)

def SrecFile.all (f : SrecFile) : List Line := f.lines.map Prod.fst ++ f.last.toList

def lineEnd (cr : Bool) : Str := if cr then [carriage, newline] else [newline]

def ended (p : Line × Bool) : Str := p.1.text ++ lineEnd p.2

def SrecFile.text (f : SrecFile) : Str :=
  f.lines.flatMap ended ++ (f.last.toList.flatMap Line.text)

def SrecFile.events (f : SrecFile) : List Event := f.all.flatMap Line.events

/-- A record of the output, without its length. -/
@[ext]
structure Record where
  address : ℕ
  data : Str
  check : ℕ

def Record.bytes (r : Record) : Str :=
  leBytes 4 r.data.length ++ leBytes 4 r.address ++ r.data ++ leBytes 4 r.check

/-- What a record says: its bytes, or the start address when it has none. -/
def Record.events (r : Record) : List Event :=
  if r.data = [] then [.start r.address] else bytesFrom r.address r.data

structure Record.Valid (r : Record) : Prop where
  length : r.data.length < 2 ^ 32
  address : r.address < 2 ^ 32
  check : r.check < 2 ^ 32
  sum : (r.data.length + r.address + (r.data.map UInt8.toNat).sum + r.check) % 2 ^ 32 = 0

/-- All lines are taken, and the output is the tag and records that say what the lines say. -/
def Converts (bigEndian : Bool) (f : SrecFile) : Prop :=
  ∃ rs : List Record, srec2bin bigEndian f.text =
      (true, leBytes 4 (tag bigEndian) ++ rs.flatMap Record.bytes) ∧
    (∀ r ∈ rs, r.Valid) ∧ rs.flatMap Record.events = f.events

/-- Two bytes of one record. -/
def adjacent (e e' : Event) : Bool :=
  e.isByte && e'.isByte && e'.address = u32 (e.address + 1)

/-- No S5 line behind an S3 line, no first address 0, no start address that is the next one or
has its next one behind it, and no 2^32 adjacent bytes. -/
structure Convertible (f : SrecFile) : Prop where
  counts : f.all.Pairwise fun l l' => ¬(l.kind = .s3 ∧ l'.kind = .s5)
  first : ∀ e ∈ f.events.head?, e.address ≠ 0
  apart : f.events.IsChain fun e e' => e'.address = u32 (e.address + 1) → e.isByte ∧ e'.isByte
  runs : ∀ es ∈ f.events.splitBy adjacent, es.length < 2 ^ 32

variable {t xs input : Str} {c : Conv} {l : Line} {ls : List Line} {n a : ℕ}

/-- What is put into the records for an event. -/
def emit (c : Conv) : Event → Conv
  | .byte a b => binRecOutByte c a b
  | .start a => binRecOutProgramStart c a

theorem digit_cases {d : Byte} {v : ℕ} (h : hexDigit? d = some v) :
    isxdigit d = true ∧ nibble d = v ∧ d ≠ newline ∧ d ≠ carriage ∧ d ≠ 0 := by
  have hall : ∀ d : Byte, (hexDigit? d).all (fun v =>
      isxdigit d && nibble d = v && d ≠ newline && d ≠ carriage && d ≠ 0) = true :=
    forall_byte (by decide +kernel)
  have hd := hall d
  rw [h] at hd
  simpa [and_assoc] using hd

theorem gh_number (h : HexText t xs) {k : ℕ} (hk : k ≤ 4) :
    gh t (2 * k) = beNumber (xs.take k) := by
  have hstep : ∀ j d v, hexDigit? d = some v →
      u32 (u32 (j * 16) + nibble d) = (j * 16 + v) % 2 ^ 32 := by
    intro j d v hd
    rw [(digit_cases hd).2.1, u32, u32, Nat.mod_add_mod]
  refine (h.take k).number hstep ?_
  rw [List.length_take]
  omega

theorem gh_byte {x : Byte} (h : HexText t (x :: xs)) : gh t 2 = x.toNat := by
  rw [gh_number (k := 1) h (by omega), List.take_succ_cons, List.take_zero, beNumber, List.foldl_cons,
    Nat.zero_mul, Nat.zero_add]
  rfl

theorem cksum_eq (h : HexText t xs) (sum : ℕ) :
    cksum xs.length t sum = sum + (xs.map UInt8.toNat).sum := by
  induction xs generalizing t sum with
  | nil => rfl
  | cons x xs ih =>
    rw [List.length_cons, cksum, gh_byte h, ih (h.drop 1), List.map_cons, List.sum_cons, Nat.add_assoc]

theorem checksum_iff (h : HexText t xs) :
    checksum t xs.length = true ↔ (xs.length + (xs.map UInt8.toNat).sum) % 256 = 255 := by
  have hall : t.all isxdigit = true := by
    rw [List.all_eq_true]
    intro d hd
    obtain ⟨v, hv⟩ := Option.isSome_iff_exists.mp (h.isDigit d hd)
    exact (digit_cases hv).1
  rw [checksum, hall, Bool.true_and, cksum_eq h, decide_eq_true_iff]

theorem dataLoop_eq (h : HexText t xs) (hn : n ≤ xs.length) (a : ℕ) (c : Conv) :
    dataLoop n t a c = (bytesFrom a (xs.take n)).foldl emit c := by
  induction n generalizing t xs a c with
  | zero => rfl
  | succ n ih =>
    cases xs with
    | nil => exact absurd hn (Nat.not_succ_le_zero n)
    | cons x xs =>
      rw [List.length_cons] at hn
      have hbyte : (gh t 2).toUInt8 = x := by
        rw [gh_byte h]
        exact UInt8.ofNat_toNat
      rw [dataLoop, hbyte, ih (h.drop 1) (Nat.le_of_succ_le_succ hn), List.take_succ_cons, bytesFrom, List.foldl_cons]
      rfl

/-- What becomes of a line. -/
def lineStep (l : Line) (c : Conv) : Bool × Conv :=
  let c' := l.events.foldl emit c
  match l.kind with
  | .s0 => (true, c')
  | .s3 => (true, { c' with s1s2s3Total := u32 (c'.s1s2s3Total + 1) })
  | .s5 => (decide (l.number ||| c.s1s2s3Total = 0), c')
  | .s7 => (true, c')

theorem body_length (l : Line) : 3 ≤ l.body.length ∧ l.body.length ≤ 126 := by
  have hlen := l.digits.length
  have hfits := l.fits
  have hform := l.form
  rw [List.length_cons] at hlen
  refine ⟨?_, by omega⟩
  cases hk : l.kind with
  | s0 => rw [hk] at hform; exact hform.1
  | s3 => rw [hk, Kind.Form] at hform; omega
  | s5 => rw [hk, Kind.Form] at hform; omega
  | s7 => rw [hk, Kind.Form] at hform; omega

theorem srecType_eq (l : Line) (h : HexText t l.body) (c : Conv) :
    srecType l.kind.digit l.body.length t c = lineStep l c := by
  have hform := l.form
  cases hk : l.kind with
  | s0 =>
    rw [hk] at hform
    have hnumber : gh t 4 = 0 := by
      rw [gh_number (k := 2) h (by omega), hform.2]
      rfl
    simp [srecType, lineStep, Kind.digit, hk, hnumber, Line.events, Nat.not_lt.mpr hform.1]
  | s3 =>
    rw [hk, Kind.Form] at hform
    have hdata : dataLoop (l.body.length - 5) (t.drop 8) (gh t 8) c = l.events.foldl emit c := by
      have hdrop : HexText (t.drop 8) (l.body.drop 4) := h.drop 4
      rw [dataLoop_eq hdrop (by rw [List.length_drop]; omega), gh_number (k := 4) h (by omega),
        Line.events, hk]
      dsimp only
      rw [List.dropLast_eq_take, List.length_drop, Line.address]
      rfl
    simp [srecType, lineStep, Kind.digit, hk, hdata, Nat.not_lt.mpr hform]
  | s5 =>
    rw [hk, Kind.Form] at hform
    have hnumber : gh t 4 = l.number := gh_number (k := 2) h (by omega)
    simp [srecType, lineStep, Kind.digit, hk, hform, hnumber, Line.events]
  | s7 =>
    rw [hk, Kind.Form] at hform
    have hnumber : gh t 8 = l.address := gh_number (k := 4) h (by omega)
    simp [srecType, lineStep, Kind.digit, hk, hform, hnumber, Line.events, emit]

theorem srecLine_eq (l : Line) (c : Conv) : srecLine l.text c = lineStep l c := by
  obtain ⟨hlow, hhigh⟩ := body_length l
  obtain ⟨-, hnil⟩ | ⟨a, b, t, x, xs, hhex, hcons, ha, hb, hrest⟩ := l.digits.cases
  · cases hnil
  obtain ⟨rfl, rfl⟩ := List.cons.inj hcons
  have hlen := hrest.length
  cases t with
  | nil =>
    rw [List.length_nil] at hlen
    omega
  | cons d t =>
    have hcount : gh (a :: b :: d :: t) 2 = l.body.length := by
      have hdigits := l.digits
      rw [hhex] at hdigits
      rw [gh_byte hdigits]
      exact UInt8.toNat_ofNat_of_lt' (hhigh.trans_lt (by decide))
    rw [Line.text, hhex, srecLine, if_neg (not_not.mpr rfl)]
    dsimp only
    rw [hcount, if_neg (by omega), if_neg (by rw [(checksum_iff hrest).mpr l.sum]; simp)]
    exact srecType_eq l hrest c

/-- A line of other characters than line ends is read into the buffer. -/
theorem readline_text {text rest buf : Str} {len rlen : ℕ}
    (htext : ∀ b ∈ text, b ≠ newline ∧ b ≠ carriage) (hlen : text.length < len) :
    readline (text ++ rest) len rlen buf =
      readline rest (len - text.length) (rlen + text.length) (buf ++ text) := by
  induction text generalizing len rlen buf with
  | nil => simp
  | cons b text ih =>
    rw [List.forall_mem_cons] at htext
    rw [List.length_cons] at hlen
    rw [List.cons_append, readline, if_neg htext.1.1, if_pos ⟨by omega, htext.1.2⟩,
      ih htext.2 (by omega), List.append_assoc, List.singleton_append, List.length_cons]
    congr 1 <;> omega

theorem text_characters (l : Line) : ∀ b ∈ l.text, b ≠ newline ∧ b ≠ carriage ∧ b ≠ 0 := by
  rw [Line.text, List.forall_mem_cons, List.forall_mem_cons]
  refine ⟨by decide, by cases l.kind <;> decide, fun d hd => ?_⟩
  obtain ⟨v, hv⟩ := Option.isSome_iff_exists.mp (l.digits.isDigit d hd)
  exact (digit_cases hv).2.2

theorem readline_line (l : Line) {rest : Str} (hrest : rest = [] ∨ ∃ input,
      rest = newline :: input ∨ rest = carriage :: newline :: input) :
    ∃ rlen, readline (l.text ++ rest) 256 0 [] = some (rlen, l.text,
      rest.drop (if rest.head? = some carriage then 2 else 1)) := by
  have hfits : l.text.length < 256 := by
    rw [Line.text, List.length_cons, List.length_cons]
    exact l.fits
  have hpos : 0 + l.text.length ≠ 0 := by
    rw [Line.text, List.length_cons]
    omega
  have hplain : ∀ b ∈ l.text, b ≠ newline ∧ b ≠ carriage := fun b hb =>
    ⟨(text_characters l b hb).1, (text_characters l b hb).2.1⟩
  rw [readline_text hplain hfits, List.nil_append]
  rcases hrest with rfl | ⟨input, rfl | rfl⟩
  · exact ⟨_, by rw [readline, if_pos hpos]; rfl⟩
  · exact ⟨_, by rw [readline, if_pos rfl]; rfl⟩
  · refine ⟨0 + l.text.length + 1, ?_⟩
    rw [readline, if_neg (by decide), if_neg (by simp), readline, if_pos rfl]
    rfl

theorem convert_line (l : Line) {rest : Str} (c : Conv) (hrest : rest = [] ∨ ∃ input,
      rest = newline :: input ∨ rest = carriage :: newline :: input) :
    convert (l.text ++ rest) c =
      if (lineStep l c).1 then
        convert (rest.drop (if rest.head? = some carriage then 2 else 1)) (lineStep l c).2
      else (false, (lineStep l c).2) := by
  obtain ⟨rlen, hread⟩ := readline_line l hrest
  have hline : l.text.takeWhile (fun b => b ≠ 0) = l.text := by
    refine List.takeWhile_eq_self_iff.mpr fun b hb => ?_
    exact decide_eq_true (text_characters l b hb).2.2
  rw [convert]
  split
  · rename_i hnone
    rw [hread] at hnone
    cases hnone
  · rename_i hsome
    rw [hread] at hsome
    cases hsome
    dsimp only
    rw [hline, if_pos (show l.text ≠ [] from List.cons_ne_nil _ _), srecLine_eq]
    cases hstep : lineStep l c with
    | mk ok c' => cases ok <;> rfl

/-- The lines one after the other, up to one that is refused. -/
def runLines : List Line → Conv → Bool × Conv
  | [], c => (true, c)
  | l :: ls, c =>
      if (lineStep l c).1 then runLines ls (lineStep l c).2 else (false, (lineStep l c).2)

theorem drop_lineEnd (cr : Bool) (rest : Str) : (lineEnd cr ++ rest).drop
    (if (lineEnd cr ++ rest).head? = some carriage then 2 else 1) = rest := by
  cases cr <;> rfl

theorem convert_nil (c : Conv) : convert [] c = (true, c) := by
  rw [convert]
  rfl

theorem convert_lines (ps : List (Line × Bool)) (last : Option Line) (c : Conv) :
    convert (ps.flatMap ended ++ last.toList.flatMap Line.text) c =
      runLines (ps.map Prod.fst ++ last.toList) c := by
  induction ps generalizing c with
  | nil =>
    cases last with
    | none => exact convert_nil c
    | some l =>
      have hline := convert_line l c (Or.inl rfl)
      rw [List.drop_nil, convert_nil, List.append_nil] at hline
      simpa [runLines] using hline
  | cons p ps ih =>
    obtain ⟨l, cr⟩ := p
    have hend : ∃ input, lineEnd cr ++ (ps.flatMap ended ++ last.toList.flatMap Line.text) =
          newline :: input ∨ lineEnd cr ++ (ps.flatMap ended ++ last.toList.flatMap Line.text) =
          carriage :: newline :: input := by
      refine ⟨ps.flatMap ended ++ last.toList.flatMap Line.text, ?_⟩
      cases cr
      · exact Or.inl rfl
      · exact Or.inr rfl
    have hline := convert_line l c (Or.inr hend)
    rw [drop_lineEnd, ih] at hline
    rw [List.flatMap_cons, ended, List.append_assoc, List.append_assoc, hline, List.map_cons,
      List.cons_append, runLines]

section Total

variable {k : ℕ}

def Conv.withTotal (c : Conv) (k : ℕ) : Conv := { c with s1s2s3Total := k }

theorem binRecEnd_withTotal (c : Conv) (k : ℕ) :
    binRecEnd (c.withTotal k) = (binRecEnd c).withTotal k := by
  unfold binRecEnd
  by_cases hc : c.recStart = true
  · rw [if_pos hc, if_pos (show (c.withTotal k).recStart = true from hc)]
    rfl
  · rw [if_neg hc, if_neg (show ¬(c.withTotal k).recStart = true from hc)]

theorem emit_withTotal (c : Conv) (k : ℕ) (e : Event) :
    emit (c.withTotal k) e = (emit c e).withTotal k := by
  have hturn (a : ℕ) : binRecTurn (c.withTotal k) a = (binRecTurn c a).withTotal k := by
    unfold binRecTurn
    by_cases ha : a ≠ u32 (c.addressCurrent + 1)
    · rw [if_pos ha, if_pos (show a ≠ u32 ((c.withTotal k).addressCurrent + 1) from ha),
        binRecEnd_withTotal]
      rfl
    · rw [if_neg ha, if_neg (show ¬a ≠ u32 ((c.withTotal k).addressCurrent + 1) from ha)]
  cases e with
  | byte a b =>
    simp only [emit, binRecOutByte, hturn]
    rfl
  | start a =>
    simp only [emit, binRecOutProgramStart, hturn]
    rfl

theorem foldl_withTotal (c : Conv) (k : ℕ) (es : List Event) :
    es.foldl emit (c.withTotal k) = (es.foldl emit c).withTotal k := by
  induction es generalizing c with
  | nil => rfl
  | cons e es ih => rw [List.foldl_cons, List.foldl_cons, emit_withTotal, ih]

theorem foldl_total (c : Conv) (es : List Event) :
    (es.foldl emit c).s1s2s3Total = c.s1s2s3Total := by
  have hsame := foldl_withTotal c c.s1s2s3Total es
  change es.foldl emit c = _ at hsame
  rw [hsame]
  rfl

theorem lineStep_snd (l : Line) (c : Conv) :
    ∃ k, (lineStep l c).2 = (l.events.foldl emit c).withTotal k := by
  unfold lineStep
  cases l.kind
  · exact ⟨_, rfl⟩
  · exact ⟨_, rfl⟩
  · exact ⟨_, rfl⟩
  · exact ⟨_, rfl⟩

/-- The records get the events of all lines when none is refused. -/
theorem runLines_snd (h : (runLines ls c).1 = true) :
    ∃ k, (runLines ls c).2 = ((ls.flatMap Line.events).foldl emit c).withTotal k := by
  induction ls generalizing c with
  | nil => exact ⟨c.s1s2s3Total, rfl⟩
  | cons l ls ih =>
    rw [runLines] at h ⊢
    by_cases hstep : (lineStep l c).1 = true
    · rw [if_pos hstep] at h ⊢
      obtain ⟨k, hk⟩ := lineStep_snd l c
      obtain ⟨k', hk'⟩ := ih h
      refine ⟨k', ?_⟩
      rw [hk', hk, List.flatMap_cons, List.foldl_append, foldl_withTotal]
      rfl
    · rw [if_neg hstep] at h
      cases h

/-- No line is refused exactly when no S5 line comes behind an S3 line. -/
theorem runLines_fst (hcounted : Counted n ls) (htotal : c.s1s2s3Total = u32 n) :
    (runLines ls c).1 = true ↔ (n ≠ 0 → ∀ l ∈ ls, l.kind ≠ .s5) ∧
      ls.Pairwise fun l l' => ¬(l.kind = .s3 ∧ l'.kind = .s5) := by
  induction ls generalizing n c with
  | nil => simp [runLines]
  | cons l ls ih =>
    obtain ⟨hnumber, hrest⟩ := hcounted
    have htotal' : (l.events.foldl emit c).s1s2s3Total = u32 n := (foldl_total c _).trans htotal
    rw [runLines, List.pairwise_cons, List.forall_mem_cons]
    cases hk : l.kind with
    | s0 =>
      have hnext := ih (by simpa [hk] using hrest) htotal'
      simpa [lineStep, hk] using hnext
    | s3 =>
      have hnext := ih (n := n + 1) (c := { l.events.foldl emit c with
        s1s2s3Total := u32 ((l.events.foldl emit c).s1s2s3Total + 1) })
        (by simpa [hk] using hrest) (by rw [htotal', u32, u32, u32, Nat.mod_add_mod])
      simp only [lineStep, hk, if_true, hnext]
      simp only [ne_eq, Nat.succ_ne_zero, not_false_eq_true, true_implies, true_and, reduceCtorEq]
      exact ⟨fun ⟨h, hp⟩ => ⟨fun _ => h, h, hp⟩, fun ⟨_, h, hp⟩ => ⟨h, hp⟩⟩
    | s5 =>
      have hnext := ih (by simpa [hk] using hrest) htotal'
      by_cases hn : n = 0
      · have hzero : l.number ||| c.s1s2s3Total = 0 := by
          rw [hnumber hk, htotal, hn]
          rfl
        simpa [lineStep, hk, hzero, hn] using hnext
      · have hzero : ¬(l.number ||| c.s1s2s3Total = 0) := by
          rw [Nat.or_eq_zero_iff, hnumber hk]
          exact fun h => hn h.1
        simp [lineStep, hk, hzero, hn]
    | s7 =>
      have hnext := ih (by simpa [hk] using hrest) htotal'
      simpa [lineStep, hk] using hnext

end Total

/-- The state when the tag is written. -/
def begun (bigEndian : Bool) : Conv :=
  binOut32 ⟨⟨[], 0⟩, false, 0, 0, 0xFFFFFFFF, 0⟩ (tag bigEndian)

/-- Whether all lines are taken, and what is written when they are. -/
theorem srec2bin_lines (bigEndian : Bool) (f : SrecFile) :
    ((srec2bin bigEndian f.text).1 = true ↔
      f.all.Pairwise fun l l' => ¬(l.kind = .s3 ∧ l'.kind = .s5)) ∧
    ((srec2bin bigEndian f.text).1 = true → (srec2bin bigEndian f.text).2 =
      (binRecEnd (f.events.foldl emit (begun bigEndian))).fOut.bytes) := by
  have hrun : srec2bin bigEndian f.text = ((runLines f.all (begun bigEndian)).1,
      (binRecEnd (runLines f.all (begun bigEndian)).2).fOut.bytes) := by
    unfold srec2bin
    dsimp only
    rw [SrecFile.text, convert_lines]
    rfl
  rw [hrun]
  constructor
  · have hlines := runLines_fst (c := begun bigEndian) f.counted rfl
    dsimp only
    rw [SrecFile.all, hlines]
    simp
  · intro h
    obtain ⟨k, hk⟩ := runLines_snd h
    dsimp only
    rw [hk, binRecEnd_withTotal]
    rfl

end Iot7688.Srec2bin
