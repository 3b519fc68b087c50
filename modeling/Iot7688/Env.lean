import Iot7688.Lib.Crc
import Iot7688.Lib.Memory

/-!
The environment in RAM: env_t, the lookups of getenv and the in-place
editing of _do_setenv. A read or write outside the data area, and a string
function given a null pointer, have no result; every other path returns what
the C code returns. Typing the carriage return that ends a baud rate change
is not waited for.
-/
namespace Iot7688.Env

open Lib

def cfgEnvSize : ℕ := 0x1000

/-- ENV_SIZE, without the CRC in front. -/
def envSize : ℕ := cfgEnvSize - 4

/-- A string in memory, without its NUL. -/
structure CStr where
  bytes : List Byte
  no_nul : 0 ∉ bytes

abbrev Data := Vector Byte envSize

structure EnvT where
  crc : BitVec 32
  data : Data

/-- The exponents of the CRC polynomial below x^32, as make_crc_table lists them. -/
def poly : BitVec 32 :=
  [0, 1, 2, 4, 5, 7, 8, 10, 11, 12, 16, 22, 23, 26].foldl (fun p n => p ||| 1#32 <<< (31 - n)) 0

def crc32 (crc : BitVec 32) (buf : List Byte) : BitVec 32 :=
  Crc.updates poly (crc ^^^ 0xffffffff#32) buf ^^^ 0xffffffff#32

/-- The literal length 0x1000 - 4 of the source is ENV_SIZE. -/
def envCrcUpdate (e : EnvT) : EnvT := { e with crc := crc32 0 e.data.toList }

def ascii (s : String) : List Byte := s.toList.map fun c => c.toNat.toUInt8

def equals : Byte := 0x3d
def blank : Byte := 0x20
def quote : Byte := 0x22

/-- `data[i] = c`. -/
def put (data : Data) (i : ℕ) (c : Byte) : Option Data :=
  if h : i < envSize then some (data.set i c h) else none

/-- The NUL at or after i. -/
def strEnd (data : Data) (i : ℕ) : Option ℕ :=
  if h : i < envSize then
    if data[i] = 0 then some i else strEnd data (i + 1)
  else none
termination_by envSize - i

theorem le_strEnd {data : Data} {i n : ℕ} (h : strEnd data i = some n) : i ≤ n := by
  fun_induction strEnd data i with
  | case1 i hi hc => exact le_of_eq (Option.some.inj h)
  | case2 i hi hc ih => exact Nat.le_of_succ_le (ih h)
  | case3 i hi => exact absurd h (by simp)

/-- Match a name against the entry at i2; the index of its value. Where both
run into a NUL the loop compares past the end of the name. -/
def envmatch (data : Data) : List Byte → ℕ → Option (Option ℕ)
  | [], i2 =>
      match data[i2]? with
      | none => none
      | some c => if c = 0 then none else if c = equals then some (some (i2 + 1)) else some none
  | s :: s1, i2 =>
      match data[i2]? with
      | none => none
      | some c =>
          if s ≠ c then some none
          else if s = equals then some (some (i2 + 1))
          else envmatch data s1 (i2 + 1)

/-- The pointers of the search loop when it stops at a definition. -/
structure Found where
  oldval : ℕ
  env : ℕ
  nxt : ℕ

def search (data : Data) (name : List Byte) (env : ℕ) : Option (Option Found) :=
  if h : env < envSize then
    if data[env] = 0 then some none
    else
      match _hn : strEnd data env with
      | none => none
      | some nxt =>
          match envmatch data name env with
          | none => none
          | some (some oldval) => some (some ⟨oldval, env, nxt⟩)
          | some none => search data name (nxt + 1)
  else none
termination_by envSize - env
decreasing_by
  have := le_strEnd _hn
  omega

/-- Move the entries from nxt on down to env. -/
def shiftDown (data : Data) (env nxt : ℕ) : Option (Data × ℕ) :=
  if h : nxt < envSize then
    match put data env data[nxt] with
    | none => none
    | some data' =>
        match data'[nxt + 1]? with
        | none => none
        | some next =>
            if data[nxt] = 0 ∧ next = 0 then some (data', env)
            else shiftDown data' (env + 1) (nxt + 1)
  else none
termination_by envSize - nxt

/-- Delete the definition between env and nxt. -/
def deleteOld (data : Data) (env nxt : ℕ) : Option Data := do
  let c ← data[nxt + 1]?
  if c = 0 then
    if env > 0 then put data env 0
    else
      let data ← put data env 0
      put data (env + 1) 0
  else
    let (data, env) ← shiftDown data env (nxt + 1)
    put data (env + 1) 0

/-- The first of two NULs. -/
def scanEnd (data : Data) (env : ℕ) : Option ℕ :=
  if h : env < envSize then
    if data[env] ≠ 0 then scanEnd data (env + 1)
    else
      match data[env + 1]? with
      | none => none
      | some c => if c ≠ 0 then scanEnd data (env + 1) else some env
  else none
termination_by envSize - env

/-- Copy a string with its NUL; the index of the NUL. -/
def copyStr (data : Data) (env : ℕ) : List Byte → Option (Data × ℕ)
  | [] => do
      let data ← put data env 0
      return (data, env)
  | c :: s => do
      let data ← put data env c
      copyStr data (env + 1) s

/-- Copy the arguments, each behind its separator. -/
def copyArgs (data : Data) (env : ℕ) (sep : Byte) : List (Option CStr) → Option (Data × ℕ)
  | [] => some (data, env)
  | none :: _ => none
  | some val :: args => do
      let data ← put data env sep
      let (data, env) ← copyStr data (env + 1) val.bytes
      copyArgs data env blank args

def argsLen : List (Option CStr) → Option ℕ
  | [] => some 0
  | none :: _ => none
  | some val :: args => do
      let len ← argsLen args
      return val.bytes.length + 1 + len

/-- Where the new definition goes. -/
def appendPos (data : Data) : Option ℕ := do
  let env ← scanEnd data 0
  return if env > 0 then env + 1 else env

/-- The length tested against the room behind env. -/
def newLen (name : CStr) (args : List (Option CStr)) : Option ℕ := do
  let len ← argsLen args
  return name.bytes.length + 2 + len

def appendNew (data : Data) (env : ℕ) (name : CStr) (args : List (Option CStr)) :
    Option Data := do
  let (data, env) ← copyStr data env name.bytes
  let (data, env) ← copyArgs data env equals args
  put data (env + 1) 0

def hexValue (c : Byte) : Option ℕ :=
  let n := c.toNat
  if 0x30 ≤ n ∧ n ≤ 0x39 then some (n - 0x30)
  else if 0x41 ≤ n ∧ n ≤ 0x46 then some (n - 0x41 + 10)
  else if 0x61 ≤ n ∧ n ≤ 0x66 then some (n - 0x61 + 10)
  else none

def strtoulDigits (base result : ℕ) : List Byte → ℕ × List Byte
  | [] => (result, [])
  | c :: cp =>
      match hexValue c with
      | none => (result, c :: cp)
      | some value =>
          if value < base then strtoulDigits base ((result * base + value) % 2 ^ 32) cp
          else (result, c :: cp)

/-- The value and the unread rest. -/
def simpleStrtoul (cp : List Byte) (base : ℕ) : ℕ × List Byte :=
  match cp with
  | 0x30 :: 0x78 :: c :: rest =>
      if (hexValue c).isSome then strtoulDigits 16 0 (c :: rest)
      else strtoulDigits (if base = 0 then 8 else base) 0 (0x78 :: c :: rest)
  | 0x30 :: rest => strtoulDigits (if base = 0 then 8 else base) 0 rest
  | cp => strtoulDigits (if base = 0 then 10 else base) 0 cp

/-- Numbers separated by one character each, low bytes only. -/
def parseBytes (base : ℕ) (s : List Byte) : ℕ → List ℕ
  | 0 => []
  | n + 1 =>
      let (val, e) := simpleStrtoul s base
      val % 256 :: parseBytes base e.tail n

/-- The string that copy_filename leaves in a buffer of the given size. -/
def copyFilename (src : List Byte) (size : ℕ) : List Byte :=
  match src with
  | [] => []
  | c :: rest =>
      if c = quote then (rest.takeWhile (· ≠ quote)).take (size - 2)
      else ((c :: rest).takeWhile (· ≠ quote)).take (size - 1)

/-- What _do_setenv changes. The addresses of bd hold their bytes in network
order. -/
structure State where
  env : EnvT
  baudrate : ℕ
  biEnetaddr : List ℕ
  biIpAddr : List ℕ
  loadAddr : ℕ
  bootFile : List Byte

def baudrateTable : List ℕ := [9600, 19200, 38400, 57600, 115200]

/-- The console a variable redirects. -/
def consoleOf (name : List Byte) : Option ℕ :=
  if name = ascii "stdin" then some 0
  else if name = ascii "stdout" then some 1
  else if name = ascii "stderr" then some 2
  else none

/-- The tests made before an existing definition is deleted: whether the call
goes on. argv[argc] is null. -/
def overwriteChecks (consoleAssign : ℕ → CStr → ℤ) (s : State) (name : CStr)
    (argv : List (Option CStr)) : Option (Bool × State) :=
  if name.bytes = ascii "serial#" ∨ name.bytes = ascii "ethaddr" then some (false, s)
  else
    match consoleOf name.bytes with
    | some console =>
        if argv.length < 3 then some (false, s)
        else
          match argv[2]?.join with
          | none => none
          | some dev => some (decide (0 ≤ consoleAssign console dev), s)
    | none =>
        if name.bytes = ascii "baudrate" then
          match argv[2]?.join with
          | none => none
          | some val =>
              let baudrate := (simpleStrtoul val.bytes 10).1
              if baudrate ∈ baudrateTable then some (true, { s with baudrate := baudrate })
              else some (false, s)
        else some (true, s)

/-- What follows a new definition outside the environment. -/
def postUpdate (s : State) (name val : CStr) : State :=
  if name.bytes = ascii "ethaddr" then { s with biEnetaddr := parseBytes 16 val.bytes 6 }
  else if name.bytes = ascii "ipaddr" then { s with biIpAddr := parseBytes 10 val.bytes 4 }
  else if name.bytes = ascii "loadaddr" then
    { s with loadAddr := (simpleStrtoul val.bytes 16).1 }
  else if name.bytes = ascii "bootfile" then { s with bootFile := copyFilename val.bytes 128 }
  else s

def State.setData (s : State) (data : Data) : State :=
  { s with env := { s.env with data := data } }

def State.crcUpdate (s : State) : State := { s with env := envCrcUpdate s.env }

/-- From "Delete only?" on. -/
def defineNew (s : State) (name : CStr) (argv : List (Option CStr)) : Option (ℤ × State) :=
  match argv[2]?.join with
  | none => some (0, s.crcUpdate)
  | some val => do
      let env ← appendPos s.env.data
      let len ← newLen name (argv.drop 2)
      if len > envSize - env then return (1, s)
      else
        let data ← appendNew s.env.data env name (argv.drop 2)
        return (0, postUpdate (s.setData data).crcUpdate name val)

/-- _do_setenv with argc the length of argv. -/
def doSetenv (consoleAssign : ℕ → CStr → ℤ) (s : State) (argv : List (Option CStr)) :
    Option (ℤ × State) := do
  let name ← argv[1]?.join
  match ← search s.env.data name.bytes 0 with
  | none => defineNew s name argv
  | some f =>
      let (ok, s) ← overwriteChecks consoleAssign s name argv
      if !ok then return (1, s)
      else
        let data ← deleteOld s.env.data f.env f.nxt
        defineNew (s.setData data) name argv

/-- The inner loop of getenv, which gives up at CFG_ENV_SIZE. -/
def strEndCapped (data : Data) (nxt : ℕ) : Option (Option ℕ) :=
  if h : nxt < envSize then
    if data[nxt] = 0 then some (some nxt)
    else if nxt ≥ cfgEnvSize then some none
    else strEndCapped data (nxt + 1)
  else none
termination_by envSize - nxt

theorem strEndCapped_eq (data : Data) (nxt : ℕ) :
    strEndCapped data nxt = (strEnd data nxt).map some := by
  fun_induction strEnd data nxt with
  | case1 i hi hc => rw [strEndCapped, dif_pos hi, if_pos hc]; rfl
  | case2 i hi hc ih =>
    have hcap : ¬ i ≥ cfgEnvSize := by
      unfold envSize at hi
      omega
    rw [strEndCapped, dif_pos hi, if_neg hc, if_neg hcap, ih]
  | case3 i hi => rw [strEndCapped, dif_neg hi]; rfl

def getenvLoop (data : Data) (name : List Byte) (i : ℕ) : Option (Option ℕ) :=
  if h : i < envSize then
    if data[i] = 0 then some none
    else
      match hn : strEndCapped data i with
      | none => none
      | some none => some none
      | some (some nxt) =>
          match envmatch data name i with
          | none => none
          | some (some val) => some (some val)
          | some none => getenvLoop data name (nxt + 1)
  else none
termination_by envSize - i
decreasing_by
  rw [strEndCapped_eq, Option.map_eq_some_iff] at hn
  obtain ⟨n, hend, hn⟩ := hn
  have := le_strEnd hend
  obtain rfl : n = nxt := Option.some.inj hn
  omega

/-- The index of the value, as an address in the data area. -/
def getenv (data : Data) (name : CStr) : Option (Option ℕ) := getenvLoop data name.bytes 0

/-- The string at an index. -/
def stringAt (data : Data) (i : ℕ) : Option (List Byte) := do
  let n ← strEnd data i
  return (data.toList.drop i).take (n - i)

/-- What a caller of getenv reads: no result, NULL or a string. -/
def getenvString (data : Data) (name : CStr) : Option (Option (List Byte)) := do
  match ← getenv data name with
  | none => return none
  | some i =>
      let s ← stringAt data i
      return some s

end Iot7688.Env
