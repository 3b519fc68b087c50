import Iot7688.Lib.Memory

/-!
Address families, and inet_pton as a function that is given from outside. Texts come
without their NUL.
-/
namespace Iot7688.Lib

inductive Family
  | inet
  | inet6
deriving DecidableEq

def Family.bits : Family → ℕ
  | .inet => 32
  | .inet6 => 128

/-- inet_pton for both families: the bytes of the address, if the text is one. -/
structure Inet where
  pton4 : List Byte → Option Mem
  pton6 : List Byte → Option Mem

def slash : Byte := 0x2f
def colon : Byte := 0x3a
def dot : Byte := 0x2e

/-- The text in front of a slash, and the text behind it. -/
def splitSlash (s : List Byte) : List Byte × Option (List Byte) :=
  let addr := s.takeWhile fun b => b ≠ slash
  (addr, match s.drop addr.length with
    | [] => none
    | _ :: p => some p)

end Iot7688.Lib
