import Iot7688.Lib.Digits
import Iot7688.Lib.Inet
import Iot7688.Lib.Strtoul

/-!
mapcalc: the parameters of MAP rules. Objects in memory have a size, and a helper that
would touch a byte outside of one ends in a fault. An int is an integer that wraps around;
what a shift by a negative or too large amount gives depends on the machine. bmemcpys64
puts a field of bits at the beginning of its target, through a window of eight bytes.
-/
namespace Iot7688.Mapcalc

open Lib

abbrev Str := List Byte

inductive Fault
  | nullValue
  | readOutside
  | writeOutside
  | shift
deriving DecidableEq

/-- The value of an int, and of a size_t. -/
def int32 (x : ℤ) : ℤ := Int.bmod x (2 ^ 32)
def sizeT (x : ℤ) : ℕ := (x % 2 ^ 32).toNat

/-- What the machine does on a shift by an amount outside of the operand. -/
inductive Wide
  | traps
  | gives (f : ℤ → ℤ → ℤ)

def Wide.result : Wide → ℤ → ℤ → Except Fault ℤ
  | .traps, _, _ => .error .shift
  | .gives f, x, n => .ok (f x n)

def shiftRight (w : Wide) (x n : ℤ) : Except Fault ℤ :=
  if 0 ≤ n ∧ n < 32 then .ok (x / 2 ^ n.toNat) else w.result x n

def shiftLeft (w : Wide) (x n : ℤ) : Except Fault ℤ :=
  if 0 ≤ n ∧ n < 32 then .ok (int32 (x * 2 ^ n.toNat)) else w.result x n

/-- The bytes that a helper touches for some bits. -/
def touched (bits : ℕ) : ℕ := if bits % 8 > 0 then bits / 8 + 1 else bits / 8

/-- Whether bmemcmp returns 0. -/
def bmemcmp (size : ℕ) (a b : Mem) (bits : ℕ) : Except Fault Bool :=
  let bytes := bits / 8
  let bits' := bits % 8
  if size < touched bits then .error .readOutside
  else .ok ((List.range bytes).all (fun i => a i = b i) &&
    (bits' = 0 || (a bytes).toNat / 2 ^ (8 - bits') = (b bytes).toNat / 2 ^ (8 - bits')))

def lowMask (bits : ℕ) : Byte := (2 ^ (8 - bits) - 1 : ℕ).toUInt8

def bmemcpy (asize : ℕ) (a : Mem) (bsize : ℕ) (b : Mem) (bits : ℕ) : Except Fault Mem :=
  let bytes := bits / 8
  let bits' := bits % 8
  if bsize < touched bits then .error .readOutside
  else if asize < touched bits then .error .writeOutside
  else
    let a := a.copy 0 bytes b
    .ok (if bits' > 0 then
      let mask := lowMask bits'
      Function.update a bytes ((a bytes &&& mask) ||| (~~~mask &&& b bytes))
    else a)

def bmemcpys64 (asize : ℕ) (a : Mem) (bsize : ℕ) (b : Mem) (frombits nbits : ℕ) :
    Except Fault Mem :=
  let frombyte := frombits / 8
  let tobyte := (frombits + nbits) % 2 ^ 32 / 8
  let len := (tobyte + 2 ^ 32 - frombyte + 1) % 2 ^ 32
  if bsize < frombyte + len then .error .readOutside
  else if 8 < len then .error .writeOutside
  else
    let buf : Mem := Mem.copy (fun _ => 0) 0 len (b.shift frombyte)
    let buf := beBytes 8 (beValue buf 8 * 2 ^ (frombits % 8) % 2 ^ 64)
    bmemcpy asize a 8 buf nbits

/-- The C library, and an address of the network daemon with its length. -/
structure Libc extends Inet where
  strtoul : Str → Option ℕ

structure Delegated where
  address : Option Str
  mask : Option (Fin 129)

/-- An interface of the dump. -/
structure Interface where
  name : Option Str
  prefixes : Option (List Delegated)
  addresses : Option (List Delegated)

/-- An option with an upper bound, as it passes its check. -/
abbrev AtMost (bound : ℤ) := {x : ℤ // -2 ^ 31 ≤ x ∧ x ≤ bound}

structure Settings where
  lw4o6 : Bool
  fmr : Bool
  ealen : AtMost 48
  prefix4len : AtMost 32
  prefix6len : AtMost 128
  pdlen : AtMost 128
  offset : AtMost 16
  psidlen : AtMost 16
  psid : AtMost 65535
  ipv4prefix : Mem
  ipv6prefix : Mem
  pd : Mem
  dmr : Option Str
  br : Option Str

def Settings.init : Settings where
  lw4o6 := false
  fmr := false
  ealen := ⟨-1, by decide⟩
  prefix4len := ⟨32, by decide⟩
  prefix6len := ⟨-1, by decide⟩
  pdlen := ⟨-1, by decide⟩
  offset := ⟨-1, by decide⟩
  psidlen := ⟨-1, by decide⟩
  psid := ⟨-1, by decide⟩
  ipv4prefix := fun _ => 0
  ipv6prefix := fun _ => 0
  pd := fun _ => 0
  dmr := none
  br := none

inductive Token
  | type | fmr | ealen | prefix4len | prefix6len | ipv6prefix | ipv4prefix | offset | psidlen
  | psid | br | dmr | pd | pdlen

def token : List (Token × String) :=
  [(.type, "type"), (.fmr, "fmr"), (.ealen, "ealen"), (.prefix4len, "prefix4len"),
    (.prefix6len, "prefix6len"), (Token.ipv6prefix, "ipv6prefix"), (Token.ipv4prefix, "ipv4prefix"),
    (.offset, "offset"), (.psidlen, "psidlen"), (.psid, "psid"), (.br, "br"), (.dmr, "dmr"),
    (.pd, "pd"), (.pdlen, "pdlen")]

def comma : Byte := 0x2c
def equals : Byte := 0x3d

/-- The value behind a name, if the text begins with this name: none when there is no '='. -/
def valueOf (name text : Str) : Option (Option Str) :=
  if name.isPrefixOf text then
    match text.drop name.length with
    | [] => some none
    | c :: value => if c = equals then some (some value) else none
  else none

/-- The token of a suboption, and its value. -/
def getsubopt (text : Str) : Option (Token × Option Str) :=
  token.findSome? fun p => (valueOf (bytesOf p.2) text).map fun value => (p.1, value)

def inRange (bound x : ℤ) : Option (AtMost bound) :=
  if h : -2 ^ 31 ≤ x ∧ x ≤ bound then some ⟨x, h⟩ else none

/-- A number with its check; without a value strtoul gets a null pointer. -/
def number (libc : Libc) (bound : ℤ) : Option Str → Except Fault (Option (AtMost bound))
  | none => .error .nullValue
  | some value => .ok ((libc.strtoul value).bind fun n => inRange bound (int32 n))

def address (pton : Str → Option Mem) : Option Str → Except Fault (Option Mem)
  | none => .error .nullValue
  | some value => .ok (pton value)

def applyOption (libc : Libc) (s : Settings) (text : Str) : Except Fault Settings :=
  match getsubopt text with
  | none => .ok s
  | some (.type, value) => .ok { s with lw4o6 := value = some (bytesOf "lw4o6") }
  | some (.fmr, _) => .ok { s with fmr := true }
  | some (.ealen, value) => do
      return { s with ealen := (← number libc 48 value).getD s.ealen }
  | some (.prefix4len, value) => do
      return { s with prefix4len := (← number libc 32 value).getD s.prefix4len }
  | some (.prefix6len, value) => do
      return { s with prefix6len := (← number libc 128 value).getD s.prefix6len }
  | some (Token.ipv4prefix, value) => do
      return { s with ipv4prefix := (← address libc.pton4 value).getD s.ipv4prefix }
  | some (Token.ipv6prefix, value) => do
      return { s with ipv6prefix := (← address libc.pton6 value).getD s.ipv6prefix }
  | some (.pd, value) => do
      return { s with pd := (← address libc.pton6 value).getD s.pd }
  | some (.offset, value) => do
      return { s with offset := (← number libc 16 value).getD s.offset }
  | some (.psidlen, value) => do
      return { s with psidlen := (← number libc 16 value).getD s.psidlen }
  | some (.pdlen, value) => do
      return { s with pdlen := (← number libc 128 value).getD s.pdlen }
  | some (.psid, value) => do
      return { s with psid := (← number libc 65535 value).getD s.psid }
  | some (.dmr, value) => .ok { s with dmr := value }
  | some (.br, value) => .ok { s with br := value }

/-- The texts between the commas. -/
def subopts : Str → List Str
  | [] => [[]]
  | c :: cs =>
      if c = comma then [] :: subopts cs else (c :: (subopts cs).headD []) :: (subopts cs).tail

/-- The loop over the options of a rule. An empty text is no option. -/
def settings (libc : Libc) (rule : Str) : Except Fault Settings :=
  (subopts rule).foldlM (applyOption libc) Settings.init

/-- The delegated prefix with its length, and its interface. -/
structure Found where
  pdlen : ℤ
  pd : Mem
  iface : Str

/-- A comparison of two addresses that is made under a condition. -/
def equalWhen (c : Bool) (a b : Mem) (bits : ℕ) : Except Fault Bool :=
  if c then bmemcmp 16 a b bits else .ok false

section

variable (libc : Libc) ( ipv6prefix : Mem) (prefix6len : ℤ) (lw4o6 : Bool)

/-- The loop body of match_prefix. -/
def matchEntry (f : Found) (d : Delegated) : Except Fault Found :=
  match d.address, d.mask with
  | some text, some mask => do
      let addr := (libc.pton6 text).getD fun _ => 0
      let mask : ℤ := if lw4o6 ∧ mask.val = 128 then 64 else mask.val
      let first ← equalWhen (f.pdlen < mask ∧ prefix6len ≤ mask) addr ipv6prefix
        (sizeT prefix6len)
      if first then
        return { f with pdlen := mask, pd := ← bmemcpy 16 f.pd 16 addr (sizeT mask) }
      else
        let second ← equalWhen (lw4o6 ∧ f.pdlen < prefix6len ∧ mask < prefix6len) addr ipv6prefix
          (sizeT mask)
        if second then
          return { f with pdlen := prefix6len
                          pd := ← bmemcpy 16 f.pd 16 ipv6prefix (sizeT prefix6len) }
        else return f
  | _, _ => .ok f

def matchPrefix (f : Found) (cur : Option (List Delegated)) : Except Fault Found :=
  (cur.getD []).foldlM (matchEntry libc ipv6prefix prefix6len lw4o6) f

/-- The loop over the interfaces; "*" takes every one. -/
def findPd (f : Found) : List Interface → Except Fault Found
  | [] => .ok f
  | c :: dump =>
      match c.name with
      | none => findPd f dump
      | some name =>
          if f.iface ≠ bytesOf "*" ∧ f.iface ≠ name then findPd f dump
          else do
            let g ← matchPrefix libc ipv6prefix prefix6len lw4o6 f c.prefixes
            let g ← if lw4o6 then matchPrefix libc ipv6prefix prefix6len lw4o6 g c.addresses
              else .ok g
            if 0 ≤ g.pdlen then return { g with iface := name } else findPd g dump

end

/-- What mapcalc is started with. -/
structure Env where
  libc : Libc
  legacy : Bool
  iface : Str
  dump : List Interface

def search (env : Env) (s : Settings) : Except Fault Found :=
  if s.pdlen.val < 0 then
    findPd env.libc s.ipv6prefix s.prefix6len s.lw4o6 ⟨s.pdlen, s.pd, env.iface⟩ env.dump
  else .ok ⟨s.pdlen, s.pd, env.iface⟩

/-- The lengths with their defaults, and the PSID that the rule gives. -/
structure Lengths where
  offset : ℤ
  ealen : ℤ
  psidlen : ℤ
  psid : ℤ

def offsetOf (legacy : Bool) (s : Settings) : ℤ :=
  if s.offset.val < 0 then if s.lw4o6 then 0 else if legacy then 4 else 6 else s.offset

/-- A lw4o6 rule has no PSID unless it gives its length, which is then its EA length. -/
def givenPsidlen (s : Settings) : ℤ := if s.lw4o6 ∧ s.psidlen.val < 0 then 0 else s.psidlen

def ealenOf (s : Settings) (pdlen : ℤ) : ℤ :=
  let ealen : ℤ := if s.lw4o6 then givenPsidlen s else s.ealen
  if ealen < 0 ∧ 0 ≤ pdlen then int32 (pdlen - s.prefix6len) else ealen

def lengths (legacy : Bool) (s : Settings) (pdlen : ℤ) : Lengths :=
  let ealen := ealenOf s pdlen
  if givenPsidlen s ≤ 0 then
    ⟨offsetOf legacy s, ealen, int32 (ealen - int32 (32 - s.prefix4len)), -1⟩
  else ⟨offsetOf legacy s, ealen, givenPsidlen s, s.psid⟩

/-- The first bit of the PSID in the delegated prefix. -/
def psidAt (prefix6len : ℤ) (l : Lengths) : ℕ :=
  sizeT (int32 (int32 (prefix6len + l.ealen) - l.psidlen))

def PsidRead (f : Found) (l : Lengths) : Prop :=
  l.psid < 0 ∧ l.psidlen ≤ 16 ∧ 0 ≤ l.psidlen ∧ 0 ≤ f.pdlen ∧ l.psidlen ≤ l.ealen

instance (f : Found) (l : Lengths) : Decidable (PsidRead f l) := by
  unfold PsidRead
  infer_instance

def readPsid (prefix6len : ℤ) (f : Found) (l : Lengths) : Except Fault ℤ :=
  if PsidRead f l then do
    let psid16 ← bmemcpys64 2 (fun _ => 0) 16 f.pd (psidAt prefix6len l) (sizeT l.psidlen)
    return beValue psid16 2
  else .ok l.psid

/-- The IPv4 address, if it is derived. -/
def readAddress (w : Wide) (s : Settings) (f : Found) (l : Lengths) : Except Fault Mem :=
  if 0 ≤ f.pdlen ∨ l.ealen = l.psidlen then do
    let addr ← bmemcpys64 4 (fun _ => 0) 16 f.pd (sizeT s.prefix6len) (sizeT (l.ealen - l.psidlen))
    let value ← shiftRight w (beValue addr 4) s.prefix4len
    bmemcpy 4 (beBytes 4 (value % 2 ^ 32).toNat) 4 s.ipv4prefix (sizeT s.prefix4len)
  else .ok fun _ => 0

def addr4len (s : Settings) (f : Found) (l : Lengths) : ℤ :=
  if (0 ≤ f.pdlen ∨ l.ealen = l.psidlen) ∧ s.prefix4len.val + l.ealen < 32 then
    s.prefix4len.val + l.ealen
  else 32

/-- One range of ports. -/
def portset (w : Wide) (l : Lengths) (psid : ℤ) (k : ℕ) : Except Fault (Option (ℤ × ℤ)) := do
  let start := Int.lor (← shiftLeft w k (16 - l.offset)) (← shiftRight w psid l.offset)
  let last := start + (← shiftLeft w 1 (16 - l.offset - l.psidlen)) - 1
  let start := if start = 0 then 1 else start
  return if start ≤ last then some (start, last) else none

def portsetsOf (w : Wide) (l : Lengths) (psid : ℤ) : List ℕ → Except Fault (List (ℤ × ℤ))
  | [] => .ok []
  | k :: ks => do
      let range ← portset w l psid k
      return range.toList ++ (← portsetsOf w l psid ks)

def portsets (w : Wide) (l : Lengths) (psid : ℤ) : Except Fault (List (ℤ × ℤ)) := do
  if 0 < l.psidlen ∧ 0 ≤ psid then
    let first := if l.offset = 0 then 0 else 1
    let bound ← shiftLeft w 1 l.offset
    portsetsOf w l psid (List.range' first (bound.toNat - first))
  else return []

/-- The IPv6 address of an interface with a delegated prefix. -/
def readIpv6addr (legacy : Bool) (f : Found) (ipv4addr psid16 : Mem) : Except Fault Mem :=
  let v4offset := if legacy then 9 else 10
  if 0 ≤ f.pdlen then
    let ipv6addr := Mem.copy (fun _ => 0) v4offset 4 ipv4addr
    bmemcpy 16 (ipv6addr.copy (v4offset + 4) 2 psid16) 16 f.pd (sizeT f.pdlen)
  else .ok fun _ => 0

/-- What is printed for a rule. -/
structure Rule where
  settings : Settings
  lengths : Lengths
  found : Found
  ipv4addr : Mem
  addr4len : ℤ
  psid : ℤ
  psid16 : Mem
  ipv6addr : Mem
  portsets : List (ℤ × ℤ)

inductive Outcome
  | skipped (message : String)
  | rule (r : Rule)

def Invalid (s : Settings) (l : Lengths) : Prop :=
  s.prefix4len.val < 0 ∨ s.prefix6len.val < 0 ∨ l.ealen < 0 ∨ l.ealen < l.psidlen

instance (s : Settings) (l : Lengths) : Decidable (Invalid s l) := by
  unfold Invalid
  infer_instance

/-- What follows when the PSID is known. -/
def finish (w : Wide) (env : Env) (s : Settings) (f : Found) (l : Lengths) (psid16 : Mem)
    (psid : ℤ) : Except Fault Outcome :=
  if Invalid s l then .ok (.skipped "Skipping invalid or incomplete rule: %s\n")
  else do
    let ipv4addr ← readAddress w s f l
    if f.pdlen < 0 ∧ ¬s.fmr then
      return .skipped "Skipping non-FMR without matching PD: %s\n"
    else
      let ipv6addr ← readIpv6addr env.legacy f ipv4addr psid16
      let ranges ← portsets w l psid
      return .rule ⟨s, l, f, ipv4addr, addr4len s f l, psid, psid16, ipv6addr, ranges⟩

def derive (w : Wide) (env : Env) (s : Settings) (f : Found) (l : Lengths) :
    Except Fault Outcome := do
  let psid ← readPsid s.prefix6len f l
  let psid ← shiftRight w psid (16 - l.psidlen)
  let aligned ← shiftLeft w psid (16 - l.psidlen)
  finish w env s f l (beBytes 2 (psid % 2 ^ 16).toNat) aligned

def mapcalc (w : Wide) (env : Env) (rule : Str) : Except Fault Outcome := do
  let s ← settings env.libc rule
  let f ← search env s
  derive w env s f (lengths env.legacy s f.pdlen)

theorem bind_ok {α β : Type} {x : Except Fault α} {f : α → Except Fault β} {b : β} :
    (x >>= f) = .ok b ↔ ∃ a, x = .ok a ∧ f a = .ok b := by
  cases x with
  | error e => exact ⟨nofun, fun ⟨_, h, _⟩ => by cases h⟩
  | ok a => exact ⟨fun h => ⟨a, rfl, h⟩, fun ⟨_, h, hf⟩ => by cases h; exact hf⟩

theorem ok_bind {α β : Type} (a : α) (f : α → Except Fault β) :
    ((.ok a : Except Fault α) >>= f) = f a := rfl

theorem int32_of_small {x : ℤ} (hlow : -2 ^ 31 ≤ x) (hhigh : x < 2 ^ 31) : int32 x = x := by
  unfold int32 Int.bmod
  dsimp only
  split
  · omega
  · omega

theorem int32_range (x : ℤ) : -2 ^ 31 ≤ int32 x ∧ int32 x < 2 ^ 31 := by
  unfold int32 Int.bmod
  dsimp only
  split
  · omega
  · omega

theorem sizeT_of_small {x : ℤ} (hlow : 0 ≤ x) (hhigh : x < 2 ^ 32) : sizeT x = x.toNat := by
  unfold sizeT
  rw [Int.emod_eq_of_lt hlow hhigh]

theorem sizeT_lt (x : ℤ) : sizeT x < 2 ^ 32 := by
  unfold sizeT
  omega

/-- A negative int is a huge size_t. -/
theorem sizeT_of_neg {x : ℤ} (hlow : -2 ^ 31 ≤ x) (hhigh : x < 0) : 2 ^ 31 ≤ sizeT x := by
  unfold sizeT
  omega

theorem shiftRight_inside (w : Wide) (x : ℤ) {n : ℤ} (hlow : 0 ≤ n) (hhigh : n < 32) :
    shiftRight w x n = .ok (x / 2 ^ n.toNat) := if_pos ⟨hlow, hhigh⟩

theorem shiftLeft_inside (w : Wide) (x : ℤ) {n : ℤ} (hlow : 0 ≤ n) (hhigh : n < 32) :
    shiftLeft w x n = .ok (int32 (x * 2 ^ n.toNat)) := if_pos ⟨hlow, hhigh⟩

theorem touched_le {bits n : ℕ} : touched bits ≤ n ↔ bits ≤ 8 * n := by
  unfold touched
  split
  · omega
  · omega

/-- The bytes that bmemcpy leaves. -/
def copyBits (a b : Mem) (bits : ℕ) : Mem :=
  let a := a.copy 0 (bits / 8) b
  if bits % 8 > 0 then
    Function.update a (bits / 8)
      ((a (bits / 8) &&& lowMask (bits % 8)) ||| (~~~lowMask (bits % 8) &&& b (bits / 8)))
  else a

theorem bmemcpy_eq {asize bsize bits : ℕ} (ha : bits ≤ 8 * asize) (hb : bits ≤ 8 * bsize)
    (a b : Mem) : bmemcpy asize a bsize b bits = .ok (copyBits a b bits) := by
  unfold bmemcpy
  dsimp only
  rw [if_neg (not_lt.mpr (touched_le.mpr hb)), if_neg (not_lt.mpr (touched_le.mpr ha))]
  rfl

theorem bmemcpy_bounds {asize bsize bits : ℕ} {a b m : Mem}
    (h : bmemcpy asize a bsize b bits = .ok m) : bits ≤ 8 * asize ∧ bits ≤ 8 * bsize := by
  unfold bmemcpy at h
  dsimp only at h
  split at h
  · cases h
  · next hb =>
    split at h
    · cases h
    · next ha => exact ⟨touched_le.mp (not_lt.mp ha), touched_le.mp (not_lt.mp hb)⟩

/-- A byte with its first r bits from another one. -/
theorem testBit_merge (x y : Byte) {r t : ℕ} (hr : 0 < r) (hr' : r < 8) (ht : t < 8) :
    ((x &&& lowMask r) ||| (~~~lowMask r &&& y)).toNat.testBit t =
      if t < 8 - r then x.toNat.testBit t else y.toNat.testBit t := by
  have hmask : ∀ r < 8, ∀ t < 8, 0 < r → (lowMask r).toNat.testBit t = decide (t < 8 - r) ∧
      (~~~lowMask r).toNat.testBit t = !decide (t < 8 - r) := by decide +kernel
  obtain ⟨hlow, hhigh⟩ := hmask r hr' t ht hr
  rw [UInt8.toNat_or, UInt8.toNat_and, UInt8.toNat_and, Nat.testBit_or, Nat.testBit_and,
    Nat.testBit_and, hlow, hhigh]
  by_cases h : t < 8 - r
  · simp [h]
  · simp [h]

/-- Exactly the bits are copied. -/
theorem bit_copyBits (a b : Mem) (bits i : ℕ) :
    bit (copyBits a b bits) i = if i < bits then bit b i else bit a i := by
  unfold copyBits
  dsimp only
  by_cases hrest : bits % 8 > 0
  · rw [if_pos hrest]
    by_cases hi : i / 8 = bits / 8
    · have houtside : (a.copy 0 (i / 8) b) (i / 8) = a (i / 8) :=
        Mem.copy_outside a b (by omega)
      rw [bit, ← hi, Function.update_self, houtside,
        testBit_merge _ _ hrest (Nat.mod_lt _ (by decide)) (by omega)]
      by_cases h : i < bits
      · rw [if_pos h, if_neg (by omega), bit]
      · rw [if_neg h, if_pos (by omega), bit]
    · have hother : Function.update (a.copy 0 (bits / 8) b) (bits / 8)
          ((a.copy 0 (bits / 8) b (bits / 8) &&& lowMask (bits % 8)) |||
            (~~~lowMask (bits % 8) &&& b (bits / 8))) (i / 8) = a.copy 0 (bits / 8) b (i / 8) :=
        Function.update_of_ne hi _ _
      rw [bit_congr hother, bit_copy]
      by_cases h : i < bits
      · rw [if_pos h, if_pos (by omega)]
      · rw [if_neg h, if_neg (by omega)]
  · rw [if_neg hrest, bit_copy]
    have hall : 8 * (bits / 8) = bits := by omega
    rw [hall]

/-- The bytes that bmemcpys64 reads lie inside when the bit behind the field does. -/
theorem bmemcpys64_bounds {asize f n : ℕ} {a b m : Mem} (hf : f < 2 ^ 32)
    (h : bmemcpys64 asize a 16 b f n = .ok m) : f + n < 128 ∧ n ≤ 8 * asize := by
  unfold bmemcpys64 at h
  dsimp only at h
  split at h
  · cases h
  · next hread =>
    split at h
    · cases h
    · next hwindow =>
      obtain ⟨ha, hbuf⟩ := bmemcpy_bounds h
      exact ⟨by omega, ha⟩

theorem bmemcpys64_eq {asize f n : ℕ} (hread : f + n < 128) (hwrite : n ≤ 8 * asize)
    (hsize : asize ≤ 7) (a b : Mem) :
    ∃ m, bmemcpys64 asize a 16 b f n = .ok m ∧
      ∀ i, bit m i = if i < n then bit b (f + i) else bit a i := by
  have hlen : ((f + n) % 2 ^ 32 / 8 + 2 ^ 32 - f / 8 + 1) % 2 ^ 32 = (f + n) / 8 - f / 8 + 1 := by
    omega
  unfold bmemcpys64
  dsimp only
  rw [hlen, if_neg (by omega), if_neg (by omega), bmemcpy_eq hwrite (by omega)]
  refine ⟨_, rfl, fun i => ?_⟩
  rw [bit_copyBits]
  by_cases hi : i < n
  · have hplace : 8 * (f / 8) + (i + f % 8) = f + i := by omega
    have hshift := bit_shiftLeft (Mem.copy (fun _ => 0) 0 ((f + n) / 8 - f / 8 + 1)
      (b.shift (f / 8))) 8 (f % 8) (i := i) (by omega)
    rw [if_pos hi, if_pos hi]
    refine hshift.trans ?_
    rw [decide_eq_true (by omega), Bool.true_and, bit_copy, if_pos (by omega), bit_shift, hplace]
  · rw [if_neg hi, if_neg hi]

end Iot7688.Mapcalc
