import Iot7688.Lib.ByteOrder
import Iot7688.Lib.Inet
import Iot7688.Lib.Strtoul

/-!
The IP calculator: the operations on its stack of addresses, and the loop of main over
the arguments. An operation has no result where C gives it none: a shift by 32 bits or
more, an index outside of s6_addr. Allocation succeeds, and what malloc leaves behind an
IPv4 address is never looked at. inet_pton is given from outside.
-/
namespace Iot7688.Owipcalc

open Lib

structure Cidr where
  family : Family
  size : BitVec 32
  addr : Mem

/-- What is printed, without the blanks between. -/
inductive Output
  | answer (yes : Bool)
  | number (n : BitVec 32)
  | address (a : Cidr)

structure State where
  stack : List Cidr
  quiet : Bool
  printed : Bool
  out : List Output

namespace State

def qprintf (o : Output) (s : State) : State :=
  { s with out := if s.quiet then s.out else s.out ++ [o], printed := true }

def cidrPush (a : Cidr) (s : State) : State := { s with stack := a :: s.stack }

/-- cidr_pop; the argument is not used. -/
def cidrPop (s : State) : State × Bool :=
  match s.stack with
  | [] => (s, false)
  | _ :: stack => ({ s with stack := stack }, true)

end State

/-- 1 << n on 32 bits. -/
def shl1 (n : BitVec 32) : Option (BitVec 32) :=
  if n.toNat < 32 then some (1#32 <<< n.toNat) else none

/-- The bits that are set, shifted out one after the other. -/
def countBits : ℕ → BitVec 32 → ℕ
  | 0, _ => 0
  | fuel + 1, x => if x = 0 then 0 else (x &&& 1).toNat + countBits fuel (x >>> 1)

/-- A prefix size of at most the given one. -/
def parseSize (limit : ℕ) (p : List Byte) : Option ℕ :=
  let r := strtoul 10 p
  if r.2 = p ∨ r.2 ≠ [] ∨ limit < r.1 then none else some r.1

section

variable (inet : Inet) (h : Host)

def cidrParse4 (s : List Byte) : Option Cidr :=
  if 33 ≤ s.length then none
  else
    let parts := splitSlash s
    let size := match parts.2 with
      | none => some 32
      | some p =>
          if dot ∈ p then (inet.pton4 p).map fun mask => countBits 32 (loadWord h mask)
          else parseSize 32 p
    let addr := if parts.1 = [] ∧ parts.2.isSome then some (fun _ => 0) else inet.pton4 parts.1
    match size, addr with
    | some size, some addr => some ⟨.inet, BitVec.ofNat 32 size, addr⟩
    | _, _ => none

def cidrParse6 (s : List Byte) : Option Cidr :=
  if 51 ≤ s.length then none
  else
    let parts := splitSlash s
    let size := match parts.2 with
      | none => some 128
      | some p => parseSize 128 p
    let addr := if parts.1 = [] ∧ parts.2.isSome then some (fun _ => 0) else inet.pton6 parts.1
    match size, addr with
    | some size, some addr => some ⟨.inet6, BitVec.ofNat 32 size, addr⟩
    | _, _ => none

inductive Parsed
  | invalid
  | exits
  | parsed (a : Cidr)

def cidrParse (s : List Byte) (hint : Family) : Parsed :=
  let r := strtoul 0 s
  if r.2.length < s.length ∧ r.2 = [] then
    match hint with
    | .inet =>
        .parsed ⟨.inet, BitVec.ofNat 32 r.1, storeWord h (htonl h (BitVec.ofNat 32 r.1)) fun _ => 0⟩
    | .inet6 =>
        .parsed ⟨.inet6, BitVec.ofNat 32 r.1, fun i => (r.1 / 2 ^ (8 * (15 - i)) % 2 ^ 8).toUInt8⟩
  else
    match if colon ∈ s then cidrParse6 inet s else cidrParse4 inet h s with
    | none => .invalid
    | some a => if a.family ≠ hint then .exits else .parsed a

end

/-- The new state and what the operation returns. -/
abbrev Result := Option (State × Bool)

abbrev Unary := Host → Cidr → State → Result
abbrev Binary := Host → Cidr → Cidr → State → Result

def Cidr.sAddr (h : Host) (a : Cidr) : BitVec 32 := loadWord h a.addr

def Cidr.setSAddr (h : Host) (x : BitVec 32) (a : Cidr) : Cidr :=
  { a with addr := storeWord h x a.addr }

def cidrAdd4 : Binary := fun h a b s =>
  let x := ntohl h (a.sAddr h)
  let y := ntohl h (b.sAddr h)
  if a.family ≠ .inet ∨ b.family ≠ .inet then some (s.cidrPush a, false)
  else if x + y < x then some (s.cidrPush a, false)
  else some (s.cidrPush (a.setSAddr h (htonl h (x + y))), true)

def cidrSub4 : Binary := fun h a b s =>
  let x := ntohl h (a.sAddr h)
  let y := ntohl h (b.sAddr h)
  if a.family ≠ .inet ∨ b.family ≠ .inet then some (s.cidrPush a, false)
  else if x < x - y then some (s.cidrPush a, false)
  else some (s.cidrPush (a.setSAddr h (htonl h (x - y))), true)

def cidrNetwork4 : Unary := fun h a s =>
  (shl1 (32 - a.size)).map fun bit =>
    (s.cidrPush { a.setSAddr h (a.sAddr h &&& htonl h (~~~(bit - 1))) with size := 32 }, true)

def cidrBroadcast4 : Unary := fun h a s =>
  (shl1 (32 - a.size)).map fun bit =>
    (s.cidrPush { a.setSAddr h (a.sAddr h ||| htonl h (bit - 1)) with size := 32 }, true)

def cidrContains4 : Binary := fun h a b s =>
  (shl1 (32 - a.size)).map fun bit =>
    let net1 := a.sAddr h &&& htonl h (~~~(bit - 1))
    let net2 := b.sAddr h &&& htonl h (~~~(bit - 1))
    if a.size ≤ b.size ∧ net1 = net2 then (s.qprintf (.answer true), true)
    else (s.qprintf (.answer false), false)

def cidrNetmask4 : Unary := fun h a s =>
  (shl1 (32 - a.size)).map fun bit =>
    (s.cidrPush { a.setSAddr h (htonl h (~~~(bit - 1))) with size := 32 }, true)

def cidrPrivate4 : Unary := fun h a s =>
  let x := ntohl h (a.sAddr h)
  if 0x0A000000 ≤ x ∧ x ≤ 0x0AFFFFFF ∨ 0xAC100000 ≤ x ∧ x ≤ 0xAC1FFFFF ∨
      0xC0A80000 ≤ x ∧ x ≤ 0xC0A8FFFF then
    some (s.qprintf (.answer true), true)
  else some (s.qprintf (.answer false), false)

def cidrLinklocal4 : Unary := fun h a s =>
  let x := ntohl h (a.sAddr h)
  if 0xA9FE0000 ≤ x ∧ x ≤ 0xA9FEFFFF then some (s.qprintf (.answer true), true)
  else some (s.qprintf (.answer false), false)

def cidrPrev4 : Binary := fun h a b s =>
  (shl1 (32 - b.size)).map fun bit =>
    (s.cidrPush { a.setSAddr h (a.sAddr h - htonl h bit) with size := b.size }, true)

def cidrNext4 : Binary := fun h a b s =>
  (shl1 (32 - b.size)).map fun bit =>
    (s.cidrPush { a.setSAddr h (a.sAddr h + htonl h bit) with size := b.size }, true)

/-- The bytes of the word are taken from its value. -/
def cidr6to4 : Unary := fun h a s =>
  let x := a.sAddr h
  let addr : Mem := fun i =>
    [0x20, 0x02, byte x 3, byte x 2, byte x 1, byte x 0].getD i 0
  some (s.cidrPush ⟨.inet6, 48, addr⟩, true)

def cidrPrint4 : Unary := fun _ a s =>
  if a.family ≠ .inet then some (s, false)
  else some ((s.qprintf (.address a)).cidrPop.1, true)

/-- From the byte with the given index downwards, with a carry in. -/
def addBytes (y : Mem) : ℕ → ℕ → Mem → Mem × ℕ
  | 0, carry, x =>
      (Function.update x 0 (x 0 + (y 0 + carry.toUInt8)),
        if 256 ≤ (x 0).toNat + (y 0).toNat + carry then 1 else 0)
  | idx + 1, carry, x =>
      addBytes y idx (if 256 ≤ (x (idx + 1)).toNat + (y (idx + 1)).toNat + carry then 1 else 0)
        (Function.update x (idx + 1) (x (idx + 1) + (y (idx + 1) + carry.toUInt8)))

def subBytes (y : Mem) : ℕ → ℕ → Mem → Mem × ℕ
  | 0, carry, x =>
      (Function.update x 0 (x 0 - (y 0 + carry.toUInt8)),
        if (x 0).toNat < (y 0).toNat + carry then 1 else 0)
  | idx + 1, carry, x =>
      subBytes y idx (if (x (idx + 1)).toNat < (y (idx + 1)).toNat + carry then 1 else 0)
        (Function.update x (idx + 1) (x (idx + 1) - (y (idx + 1) + carry.toUInt8)))

def cidrAdd6 : Binary := fun _ a b s =>
  if a.family ≠ .inet6 ∨ b.family ≠ .inet6 then some (s.cidrPush a, false)
  else
    let r := addBytes b.addr 15 0 a.addr
    some (s.cidrPush { a with addr := r.1 }, r.2 = 0)

def cidrSub6 : Binary := fun _ a b s =>
  if a.family ≠ .inet6 ∨ b.family ≠ .inet6 then some (s.cidrPush a, false)
  else
    let r := subBytes b.addr 15 0 a.addr
    some (s.cidrPush { a with addr := r.1 }, r.2 = 0)

/-- The index of the byte that is changed by one; it is kept in eight bits. -/
def sizeIndex (b : Cidr) : ℕ := (b.size.toNat - 1) / 8 % 2 ^ 8

def cidrPrev6 : Binary := fun _ a b s =>
  if b.size = 0 then some (s.cidrPush a, false)
  else if 15 < sizeIndex b then none
  else
    let r := subBytes (fun _ => 0) (sizeIndex b) 1 a.addr
    if r.2 ≠ 0 then some (s.cidrPush { a with addr := r.1 }, false)
    else some (s.cidrPush { a with addr := r.1, size := b.size }, true)

def cidrNext6 : Binary := fun _ a b s =>
  if b.size = 0 then some (s.cidrPush a, false)
  else if 15 < sizeIndex b then none
  else
    let r := addBytes (fun _ => 0) (sizeIndex b) 1 a.addr
    if r.2 ≠ 0 then some (s.cidrPush { a with addr := r.1 }, false)
    else some (s.cidrPush { a with addr := r.1, size := b.size }, true)

/-- The mask for the byte in which a prefix with this many bits behind it ends. -/
def byteMask (rest : BitVec 32) : Byte := ~~~((1 <<< (rest.toNat % 8) - 1 : ℕ).toUInt8)

def cidrNetwork6 : Unary := fun _ a s =>
  let rest := 128 - a.size
  let i := rest.toNat / 8
  if 16 < i ∨ rest.toNat % 8 ≠ 0 ∧ i = 16 then none
  else
    let addr : Mem := fun x => if 16 - i ≤ x then 0 else a.addr x
    let addr := if rest.toNat % 8 ≠ 0 then
        Function.update addr (15 - i) (addr (15 - i) &&& byteMask rest)
      else addr
    some (s.cidrPush { a with addr := addr }, true)

def cidrContains6 : Binary := fun _ a b s =>
  let rest := 128 - a.size
  let i := rest.toNat / 8 % 2 ^ 8
  if 15 < i then none
  else
    let net1 := a.addr (15 - i) &&& byteMask rest
    let net2 := b.addr (15 - i) &&& byteMask rest
    let s := s.cidrPush a
    if a.size ≤ b.size ∧ net1 = net2 ∧
        (i = 15 ∨ (List.range (15 - i)).all fun k => a.addr k = b.addr k) then
      some (s.qprintf (.answer true), true)
    else some (s.qprintf (.answer false), false)

def cidrLinklocal6 : Unary := fun _ a s =>
  if a.addr 0 = 0xFE ∧ 0x80 ≤ a.addr 1 ∧ a.addr 1 ≤ 0xBF then
    some (s.qprintf (.answer true), true)
  else some (s.qprintf (.answer false), false)

def cidrUla6 : Unary := fun _ a s =>
  if 0xFC ≤ a.addr 0 ∧ a.addr 0 ≤ 0xFD then some (s.qprintf (.answer true), true)
  else some (s.qprintf (.answer false), false)

def cidrPrint6 : Unary := fun _ a s =>
  if a.family ≠ .inet6 then some (s, false)
  else some ((s.qprintf (.address a)).cidrPop.1, true)

def cidrHowmany : Binary := fun _ a b s =>
  if b.size < a.size then some (s.qprintf (.number 0), true)
  else (shl1 (b.size - a.size)).map fun n => (s.qprintf (.number n), true)

/-- cidr_prefix changes the entry on top of the stack. -/
def setSize : Binary := fun _ a b s =>
  some ({ s with stack := { a with size := b.size } :: s.stack.tail }, true)

def cidrQuiet : Unary := fun _ _ s => some ({ s with quiet := true }, true)

def pop : Unary := fun _ _ s => some s.cidrPop

inductive Op
  | add
  | sub
  | next
  | prev
  | network
  | broadcast
  | size
  | netmask
  | sixToFour
  | howmany
  | contains
  | isPrivate
  | linklocal
  | ula
  | quiet
  | pop
  | print
deriving DecidableEq

namespace Op

def name : Op → String
  | add => "add"
  | sub => "sub"
  | next => "next"
  | prev => "prev"
  | network => "network"
  | broadcast => "broadcast"
  | size => "prefix"
  | netmask => "netmask"
  | sixToFour => "6to4"
  | howmany => "howmany"
  | contains => "contains"
  | isPrivate => "private"
  | linklocal => "linklocal"
  | ula => "ula"
  | quiet => "quiet"
  | pop => "pop"
  | print => "print"

def f4a1 : Op → Option Unary
  | network => some cidrNetwork4
  | broadcast => some cidrBroadcast4
  | netmask => some cidrNetmask4
  | sixToFour => some cidr6to4
  | isPrivate => some cidrPrivate4
  | linklocal => some cidrLinklocal4
  | quiet => some cidrQuiet
  | pop => some Owipcalc.pop
  | print => some cidrPrint4
  | _ => none

def f4a2 : Op → Option Binary
  | add => some cidrAdd4
  | sub => some cidrSub4
  | next => some cidrNext4
  | prev => some cidrPrev4
  | size => some setSize
  | howmany => some cidrHowmany
  | contains => some cidrContains4
  | _ => none

def f6a1 : Op → Option Unary
  | network => some cidrNetwork6
  | linklocal => some cidrLinklocal6
  | ula => some cidrUla6
  | quiet => some cidrQuiet
  | pop => some Owipcalc.pop
  | print => some cidrPrint6
  | _ => none

def f6a2 : Op → Option Binary
  | add => some cidrAdd6
  | sub => some cidrSub6
  | next => some cidrNext6
  | prev => some cidrPrev6
  | size => some setSize
  | howmany => some cidrHowmany
  | contains => some cidrContains6
  | _ => none

/-- The functions for a family. -/
def a1 (f : Family) (op : Op) : Option Unary := if f = .inet then op.f4a1 else op.f6a1
def a2 (f : Family) (op : Op) : Option Binary := if f = .inet then op.f4a2 else op.f6a2

end Op

def ops : List Op :=
  [.add, .sub, .next, .prev, .network, .broadcast, .size, .netmask, .sixToFour, .howmany,
    .contains, .isPrivate, .linklocal, .ula, .quiet, .pop, .print]

def findOp (arg : List Byte) : Option Op := ops.find? fun op => bytesOf op.name = arg

/-- The rest of the arguments, the exit status so far, and the globals. -/
structure Config where
  args : List (List Byte)
  status : ℕ
  state : State

/-- What runop does: it returns true or false, or the program ends. -/
inductive Next
  | crash
  | undefined
  | exits (status : ℕ)
  | stops (c : Config)
  | continues (c : Config)

/-- What an operation returned. -/
def Next.ofResult (rest : List (List Byte)) : Result → Next
  | none => .undefined
  | some (s, ok) => .continues ⟨rest, if ok then 0 else 1, s⟩

section

variable (inet : Inet) (h : Host)

def runop (c : Config) : Next :=
  match c.args with
  | [] => .stops c
  | arg1 :: rest =>
      match findOp arg1 with
      | none => .stops c
      | some op =>
          if op.f4a2.isSome ∨ op.f6a2.isSome then
            match rest with
            | [] => .stops { c with status := 2 }
            | arg2 :: rest =>
                match c.state.stack with
                | [] => .crash
                | a :: _ =>
                    match cidrParse inet h arg2 a.family with
                    | .exits => .exits 4
                    | .invalid => .stops { c with status := 3 }
                    | .parsed b =>
                        match op.a2 a.family with
                        | none => .stops ⟨rest, 5, c.state⟩
                        | some f => Next.ofResult rest (f h a b c.state)
          else
            match c.state.stack with
            | [] => .crash
            | a :: _ =>
                match op.a1 a.family with
                | none => .stops ⟨rest, 5, c.state⟩
                | some f => Next.ofResult rest (f h a c.state)

/-- The globals when the base address is pushed. -/
def start (base : List Byte) : Option State :=
  (if colon ∈ base then cidrParse6 inet base else cidrParse4 inet h base).map fun a =>
    ⟨[a], false, false, []⟩

/-- The loop of main and what follows it; each round uses up an argument. -/
def runAll : ℕ → Config → Next
  | 0, c => .stops c
  | fuel + 1, c =>
      match runop inet h c with
      | .continues c => runAll fuel c
      | .stops c =>
          if c.args ≠ [] then .exits 6
          else if c.state.printed = false ∧ c.status < 2 then
            match c.state.stack with
            | [] => .crash
            | a :: _ =>
                .stops { c with state := ((if a.family = .inet then cidrPrint4 else cidrPrint6)
                  h a c.state).elim c.state Prod.fst }
          else .stops c
      | r => r

def main (argv : List (List Byte)) : Next :=
  match argv with
  | base :: arg :: args =>
      match start inet h base with
      | none => .exits 1
      | some s => runAll inet h (args.length + 2) ⟨arg :: args, 0, s⟩
  | _ => .exits 1

/-- The configurations in which main calls runop. -/
inductive Reach (base : List Byte) (args : List (List Byte)) : Config → Prop
  | start (s : State) (hargs : args ≠ []) (h : start inet h base = some s) :
      Reach base args ⟨args, 0, s⟩
  | step (c c' : Config) (hc : Reach base args c) (h : runop inet h c = .continues c') :
      Reach base args c'

end

end Iot7688.Owipcalc
