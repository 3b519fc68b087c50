import Iot7688.Lib.ByteOrder
import Iot7688.Lib.Inet
import Iot7688.Lib.Strtoul

/-!
The address objects of luci.ip and the Lua functions that make them and change them, on a
little-endian host. A function sees the Lua stack with its arguments; an operand that is
not an object becomes one that is pushed on top, where a later index may find it. New
userdata holds whatever was in its memory.
-/
namespace Iot7688.LuciIp

open Lib

/-- cidr_t. The union of the addresses has sixteen bytes. -/
structure Cidr where
  addr : Mem
  len : ℤ
  bits : ℤ
  family : Family

/-- An argument; a number is what lua_tointeger makes of it. -/
inductive Value
  | nil
  | boolean (b : Bool)
  | number (n : BitVec 32)
  | string (s : List Byte)
  | object (ref : ℕ)

/-- The Lua stack of a function: arguments, and objects that it pushed itself. -/
abbrev Stack := List (Value ⊕ Cidr)

/-- What a call depends on: inet_pton, the string that happens to be in the uninitialised
end of a buffer, and the contents of new userdata. -/
structure Env where
  inet : Inet
  garbage : List Byte
  fresh : Cidr

def sizeofV4 : ℤ := 4
def sizeofV6 : ℤ := 16

/-- The conversion of an unsigned long to an int. -/
def toInt (n : ℕ) : ℤ := (BitVec.ofNat 32 n).toInt

/-- The bits set from the highest on, at most the given number. -/
def leadingOnes (bit : ℕ → Bool) : ℕ → ℕ → ℕ
  | 0, n => n
  | fuel + 1, n => if bit n then leadingOnes bit fuel (n + 1) else n

def parseMask (inet : Inet) (family : Family) (mask : List Byte) : Option ℤ :=
  match family, inet.pton4 mask, inet.pton6 mask with
  | .inet, some m, _ =>
      some (leadingOnes (fun n => ((loadWord .big m) <<< n).msb) 32 0)
  | .inet6, _, some m6 =>
      some (leadingOnes (fun n => (m6 (n / 8) <<< (n % 8).toUInt8) &&& 128 ≠ 0) 128 0)
  | _, _, _ =>
      let r := strtoul 10 mask
      if r.2 = mask ∨ r.2 ≠ [] ∨ family.bits < toInt r.1 then none else some (toInt r.1)

/-- The buffer of parse_cidr as a string: INET6_ADDRSTRLEN * 2 + 2 bytes, of which strncpy
does not write the last one. -/
def cidrBuf (garbage dest : List Byte) : List Byte :=
  if dest.length < 93 then dest else dest.take 93 ++ garbage

def parseCidr (env : Env) (dest : List Byte) : Option Cidr :=
  let parts := splitSlash (cidrBuf env.garbage dest)
  let addr : Option Cidr := match env.inet.pton4 parts.1, env.inet.pton6 parts.1 with
    | some addr, _ => some ⟨addr, sizeofV4, 32, .inet⟩
    | none, some addr => some ⟨addr, sizeofV6, 128, .inet6⟩
    | none, none => none
  match addr, parts.2 with
  | none, _ => none
  | some pp, some p => (parseMask env.inet pp.family p).map fun bits => { pp with bits := bits }
  | some pp, none => some pp

/-- lua_type and the like at an index; there may be no value. -/
def valueAt (stack : Stack) (index : ℕ) : Option (Value ⊕ Cidr) := stack[index - 1]?

/-- L_checkbits; none is an error of Lua. -/
def checkbits (inet : Inet) (stack : Stack) (index : ℕ) (p : Cidr) : Option ℤ :=
  match valueAt stack index with
  | none => some p.bits
  | some (.inl .nil) => some p.bits
  | some (.inl (.number n)) => if n.toInt < 0 ∨ p.family.bits < n.toInt then none else some n.toInt
  | some (.inl (.string s)) => parseMask inet p.family s
  | some _ => none

/-- The result of _cidr_new. -/
inductive New
  | error
  | nothing
  | object (c : Cidr)

def cidrNew (env : Env) (stack : Stack) (index : ℕ) (family : Option Family) (mask : Bool) :
    New :=
  match valueAt stack index with
  | some (.inl (.number x)) =>
      let n := htonl .little x
      match family with
      | some .inet6 =>
          .object ⟨fun i => if 12 ≤ i then byte n (i - 12) else 0, sizeofV6, 128, .inet6⟩
      | _ => .object ⟨storeWord .little n fun _ => 0, sizeofV4, 32, .inet⟩
  | some (.inl (.string addr)) =>
      match parseCidr env addr with
      | none => .nothing
      | some cidr =>
          if family.isSome ∧ family ≠ some cidr.family then .nothing
          else if mask then
            match checkbits env.inet stack (index + 1) cidr with
            | none => .error
            | some bits => .object { cidr with bits := bits }
          else .object cidr
  | _ => .error

/-- An operand: the object, its place if it is one of Lua's, and the stack. -/
structure Operand where
  val : Cidr
  ref : Option ℕ
  stack : Stack

/-- L_checkcidr; none is an error of Lua. -/
def checkcidr (env : Env) (heap : List Cidr) (stack : Stack) (index : ℕ) (p : Option Cidr) :
    Option Operand :=
  match valueAt stack index with
  | some (.inl (.object ref)) => heap[ref]?.map fun c => ⟨c, some ref, stack⟩
  | some (.inr c) => some ⟨c, none, stack⟩
  | _ =>
      match cidrNew env stack index (p.map Cidr.family) false with
      | .object c => some ⟨c, none, stack ++ [.inr c]⟩
      | _ => none

/-- Byte i of a mask with the given number of bits. -/
def maskByte (bits i : ℕ) : Byte := (0xFF <<< (8 - min (bits - 8 * i) 8) : ℕ).toUInt8

/-- _apply_mask; none when memset gets past the address. -/
def applyMask (p : Cidr) (bits : ℤ) (inv : Bool) : Option Cidr :=
  if bits ≤ 0 then
    if 0 ≤ p.len ∧ p.len ≤ sizeofV6 then
      some { p with addr := p.addr.fill 0 p.len.toNat (if inv then 0xFF else 0) }
    else none
  else
    match p.family with
    | .inet =>
        if bits ≤ 32 then
          let m := 1#32 <<< (32 - bits.toNat) - 1
          let x := loadWord .little p.addr
          let x := if inv then x ||| ntohl .little m else x &&& ntohl .little (~~~m)
          some { p with addr := storeWord .little x p.addr }
        else some p
    | .inet6 =>
        if bits ≤ 128 then
          let byte (i : ℕ) : Byte :=
            if inv then p.addr i ||| ~~~maskByte bits.toNat i
            else p.addr i &&& maskByte bits.toNat i
          some { p with addr := fun i => if 16 ≤ i then p.addr i else byte i }
        else some p

/-- What a Lua function does: the objects, and the object it returns. -/
inductive Ret
  | error
  | crash
  | returns (heap : List Cidr) (new : Option Cidr)

def hostBits (p : Cidr) : ℤ := p.family.bits

section

variable (env : Env) (heap : List Cidr) (stack : Stack)

def Ret.ofNew : New → Ret
  | .error => .error
  | .nothing => .returns heap none
  | .object c => .returns heap (some c)

/-- The object that is returned, or none for a crash. -/
def Ret.ofCidr : Option Cidr → Ret
  | none => .crash
  | some c => .returns heap (some c)

/-- The beginning of the functions of one operand and a mask. -/
def withMask (f : Operand → ℤ → Ret) : Ret :=
  match checkcidr env heap stack 1 none with
  | none => .error
  | some p =>
      match checkbits env.inet p.stack 2 p.val with
      | none => .error
      | some bits => f p bits

def cidrNetwork : Ret := withMask env heap stack fun p1 bits =>
  Ret.ofCidr heap (applyMask { p1.val with bits := hostBits p1.val } bits false)

def cidrHost : Ret :=
  match checkcidr env heap stack 1 none with
  | none => .error
  | some p1 => .returns heap (some { p1.val with bits := hostBits p1.val })

/-- The length of the new object is not set. -/
def cidrMask : Ret := withMask env heap stack fun p1 bits =>
  Ret.ofCidr heap (applyMask
    { env.fresh with bits := hostBits p1.val, family := p1.val.family, addr := fun _ => 0xFF }
    bits false)

def cidrBroadcast : Ret := withMask env heap stack fun p1 bits =>
  if p1.val.family = .inet6 then .returns heap none
  else Ret.ofCidr heap (applyMask { p1.val with bits := hostBits p1.val } bits true)

def isMapped4 (p : Cidr) : Bool :=
  p.family = .inet6 && (List.range 10).all (fun i => p.addr i = 0) && p.addr 10 = 0xFF &&
    p.addr 11 = 0xFF

/-- The length of the new object is not set. -/
def cidrMapped4 : Ret :=
  match checkcidr env heap stack 1 none with
  | none => .error
  | some p1 =>
      if isMapped4 p1.val then
        .returns heap (some { env.fresh with
          family := .inet
          bits := if 32 < p1.val.bits then 32 else p1.val.bits
          addr := env.fresh.addr.copy 0 4 (p1.val.addr.shift 12) })
      else .returns heap none

/-- The sum or difference of the last bytes, with the carry out of them. -/
def addSubBytes (add : Bool) (x y : Mem) : ℕ → Mem × ℕ
  | 0 => (x, 0)
  | i + 1 =>
      let r := addSubBytes add x y i
      let k := 15 - i
      if add then
        (Function.update r.1 k (x k + y k + r.2.toUInt8), ((x k).toNat + (y k).toNat + r.2) / 256)
      else
        (Function.update r.1 k (x k - y k - r.2.toUInt8),
          if (x k).toNat < (y k).toNat + r.2 then 1 else 0)

/-- The address of the sum or difference. -/
def addSubAddr (add : Bool) (p1 p2 : Cidr) : Mem :=
  match p1.family with
  | .inet6 =>
      let r := addSubBytes add p1.addr p2.addr 16
      if r.2 ≠ 0 then (if add then fun _ => 0xFF else fun _ => 0) else r.1
  | .inet =>
      let a := ntohl .little (loadWord .little p1.addr)
      let b := ntohl .little (loadWord .little p2.addr)
      if add ∧ 0xFFFFFFFF - a < b ∨ ¬add ∧ a < b then
        storeWord .little (if add then 0xFFFFFFFF else 0) p1.addr
      else storeWord .little (htonl .little (if add then a + b else a - b)) p1.addr

/-- _cidr_add_sub. -/
def cidrAddSub (add : Bool) : Ret :=
  match checkcidr env heap stack 1 none with
  | none => .error
  | some p1 =>
      match checkcidr env heap p1.stack 2 (some p1.val) with
      | none => .error
      | some p2 =>
          let r : Cidr := if p1.val.family = p2.val.family then
              { p1.val with addr := addSubAddr add p1.val p2.val }
            else p1.val
          match valueAt p2.stack 3, p1.ref with
          | some (.inl (.boolean true)), some ref => .returns (heap.set ref r) none
          | some (.inl (.boolean true)), none => .returns heap none
          | _, _ => .returns heap (some r)

/-- An IPv6 address plus one. -/
def succBytes (x : Mem) : ℕ → Mem × ℕ
  | 0 => (x, 1)
  | i + 1 =>
      let r := succBytes x i
      let k := 15 - i
      (Function.update r.1 k (x k + r.2.toUInt8), if 255 < (x k).toNat + r.2 then 1 else 0)

def minhost (r : Cidr) : Cidr :=
  match r.family with
  | .inet6 => if r.bits < 128 then { r with bits := 128, addr := (succBytes r.addr 16).1 } else r
  | .inet =>
      if r.bits < 32 then
        { r with
          bits := 32
          addr := storeWord .little
            (htonl .little (ntohl .little (loadWord .little r.addr) + 1)) r.addr }
      else r

def cidrMinhost : Ret :=
  match checkcidr env heap stack 1 none with
  | none => .error
  | some p => Ret.ofCidr heap ((applyMask p.val p.val.bits false).map minhost)

def maxhost (r : Cidr) : Cidr :=
  match r.family with
  | .inet6 => { r with bits := 128 }
  | .inet =>
      if r.bits < 32 then
        { r with
          bits := 32
          addr := storeWord .little
            (htonl .little (ntohl .little (loadWord .little r.addr) - 1)) r.addr }
      else r

def cidrMaxhost : Ret :=
  match checkcidr env heap stack 1 none with
  | none => .error
  | some p => Ret.ofCidr heap ((applyMask p.val p.val.bits true).map maxhost)

/-- cidr_prefix changes its operand. -/
def setBits : Ret := withMask env heap stack fun p bits =>
  match p.ref with
  | some ref => .returns (heap.set ref { p.val with bits := bits }) none
  | none => .returns heap none

end

inductive Fn
  | new
  | ipv4
  | ipv6
  | network
  | host
  | mask
  | broadcast
  | mapped4
  | add
  | sub
  | minhost
  | maxhost
  | bits

/-- A call from Lua. -/
structure Call where
  fn : Fn
  args : List Value
  garbage : List Byte
  fresh : Cidr

def Call.run (inet : Inet) (heap : List Cidr) (c : Call) : Ret :=
  let env : Env := ⟨inet, c.garbage, c.fresh⟩
  let stack : Stack := c.args.map .inl
  match c.fn with
  | .new => Ret.ofNew heap (cidrNew env stack 1 none true)
  | .ipv4 => Ret.ofNew heap (cidrNew env stack 1 (some .inet) true)
  | .ipv6 => Ret.ofNew heap (cidrNew env stack 1 (some .inet6) true)
  | .network => cidrNetwork env heap stack
  | .host => cidrHost env heap stack
  | .mask => cidrMask env heap stack
  | .broadcast => cidrBroadcast env heap stack
  | .mapped4 => cidrMapped4 env heap stack
  | .add => cidrAddSub env heap stack true
  | .sub => cidrAddSub env heap stack false
  | .minhost => cidrMinhost env heap stack
  | .maxhost => cidrMaxhost env heap stack
  | .bits => setBits env heap stack

/-- The objects of Lua after a call. -/
def Call.next (inet : Inet) (heap : List Cidr) (c : Call) : List Cidr :=
  match c.run inet heap with
  | .returns heap new => heap ++ new.toList
  | _ => heap

end Iot7688.LuciIp
