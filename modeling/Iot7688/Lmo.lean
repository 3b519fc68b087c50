import Iot7688.Lib.ByteOrder
import Iot7688.Template

/-!
The catalog reader of LuCI: an archive is a file of values, an index of entries sorted
by the hash of their keys, and the place of the index at its end. A translation looks
for the hash of the key with its white space squeezed.
-/
namespace Iot7688.Lmo

open Lib
open Template (isSpace ascii)

def get16 (a b : Byte) : UInt32 := (b.toUInt32 <<< 8) + a.toUInt32

/-- A char is signed. -/
def charWord (b : Byte) : UInt32 := if b < 0x80 then b.toUInt32 else b.toUInt32 - 0x100

/-- The main loop and the bytes that it leaves. -/
def sfhLoop : UInt32 → List Byte → UInt32 × List Byte
  | hash, a :: b :: c :: d :: data =>
      let hash := hash + get16 a b
      let tmp := (get16 c d <<< 11) ^^^ hash
      let hash := (hash <<< 16) ^^^ tmp
      sfhLoop (hash + (hash >>> 11)) data
  | hash, data => (hash, data)

def sfhEnd (hash : UInt32) : List Byte → UInt32
  | [a, b, c] =>
      let hash := hash + get16 a b
      let hash := hash ^^^ (hash <<< 16)
      let hash := hash ^^^ (charWord c <<< 18)
      hash + (hash >>> 11)
  | [a, b] =>
      let hash := hash + get16 a b
      let hash := hash ^^^ (hash <<< 11)
      hash + (hash >>> 17)
  | [a] =>
      let hash := hash + charWord a
      let hash := hash ^^^ (hash <<< 10)
      hash + (hash >>> 1)
  | _ => hash

def sfhHash (data : List Byte) : UInt32 :=
  if data = [] then 0
  else
    let (hash, rest) := sfhLoop (UInt32.ofNat data.length) data
    let hash := sfhEnd hash rest
    let hash := hash ^^^ (hash <<< 3)
    let hash := hash + (hash >>> 5)
    let hash := hash ^^^ (hash <<< 4)
    let hash := hash + (hash >>> 17)
    let hash := hash ^^^ (hash <<< 25)
    hash + (hash >>> 6)

def canonLoop : Byte → List Byte → List Byte
  | _, [] => []
  | prev, b :: str =>
      (if isSpace b then (if isSpace prev then [] else [0x20]) else [b]) ++ canonLoop b str

/-- The text that lmo_canon_hash puts together. -/
def canonText (str : List Byte) : List Byte :=
  let res := canonLoop 0x20 str
  if res.getLast?.any isSpace then res.dropLast else res

def lmoCanonHash (str : List Byte) : UInt32 :=
  if 4096 ≤ str.length then 0 else sfhHash (canonText str)

/-- A file that is mapped, and the memory around it. -/
structure Mapping where
  data : List Byte
  around : ℤ → Byte

namespace Mapping

variable (f : Mapping)

def byte (i : ℤ) : Byte :=
  if 0 ≤ i ∧ i < f.data.length then f.data.getD i.toNat 0 else f.around i

def bytes (p : ℤ) (n : ℕ) : List Byte := (List.range n).map fun i : ℕ => f.byte (p + i)

def word (p : ℤ) : UInt32 := ofBe32 (f.bytes p 4)

end Mapping

structure LmoArchive where
  length : UInt32
  size : UInt32
  index : UInt32
  mmap : Mapping

/-- An empty file cannot be mapped. -/
def lmoOpen (f : Mapping) : Option LmoArchive :=
  if f.data = [] then none
  else
    let size := UInt32.ofNat f.data.length
    let idxOffset := f.word (size.toNat - 4)
    if size ≤ idxOffset then none else some ⟨(size - idxOffset - 4) / 16, size, idxOffset, f⟩

namespace LmoArchive

variable (ar : LmoArchive)

/-- The fields of the entry m. -/
def keyId (m : ℕ) : UInt32 := ar.mmap.word (ar.index.toNat + 16 * m)
def offset (m : ℕ) : UInt32 := ar.mmap.word (ar.index.toNat + 16 * m + 8)
def valLength (m : ℕ) : UInt32 := ar.mmap.word (ar.index.toNat + 16 * m + 12)

end LmoArchive

/-- The loop of lmo_find_entry, with a bound on its rounds. -/
def findLoop (keyId : ℕ → UInt32) (hash : UInt32) :
    ℕ → UInt32 → UInt32 → Option (Option UInt32)
  | 0, _, _ => none
  | rounds + 1, l, r =>
      let m := l + (r - l) / 2
      if r < l then some none
      else
        let k := keyId m.toNat
        if k = hash then some (some m)
        else if hash < k then
          if m = 0 then some none else findLoop keyId hash rounds l (m - 1)
        else findLoop keyId hash rounds (m + 1) r

def lmoFindEntry (rounds : ℕ) (ar : LmoArchive) (hash : UInt32) : Option (Option UInt32) :=
  findLoop ar.keyId hash rounds 0 (ar.length - 1)

/-- The archives of a catalog whose files are these. -/
def lmoLoadCatalog (files : List Mapping) : List LmoArchive :=
  files.foldl (fun archives f => (lmoOpen f).toList ++ archives) []

def translateIn (rounds : ℕ) (hash : UInt32) : List LmoArchive → Option (ℤ × List Byte)
  | [] => some (-1, [])
  | ar :: archives =>
      match lmoFindEntry rounds ar hash with
      | none => none
      | some none => translateIn rounds hash archives
      | some (some m) =>
          some (0, ar.mmap.bytes (ar.offset m.toNat).toNat (ar.valLength m.toNat).toNat)

/-- The result and the bytes that out and outlen describe, unless the search runs out of
rounds. -/
def lmoTranslate (rounds : ℕ) (active : Option (List LmoArchive)) (key : List Byte) :
    Option (ℤ × List Byte) :=
  match active with
  | none => some (-2, [])
  | some archives => translateIn rounds (lmoCanonHash key) archives

end Iot7688.Lmo
