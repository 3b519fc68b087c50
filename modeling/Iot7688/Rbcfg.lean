import Iot7688.Lib.ByteOrder
import Iot7688.Lib.Crc
import Iot7688.Lib.Patch

/-!
The RouterBOOT configuration utility: the tags of a configuration, the choice between
the temporary file and the flash device, and the commands. The device is found and as
long as the configuration, and allocation succeeds. The tests of rbcfg_load pass exactly for
what rbcfg_update writes, and setting the word of one tag keeps all the others.
-/
namespace Iot7688.Rbcfg

open Lib

/-- RB_ERR_*. An access behind the buffer is `outside`, an exit of main of its own is `usage`. -/
inductive Err
  | notFound
  | invalid
  | io
  | outside
  | usage
deriving DecidableEq

def rbMagicSoft : UInt32 := 0x74666f53

def rbIdTerminator : ℕ := 0
def rbIdUartSpeed : ℕ := 1
def rbIdBootDelay : ℕ := 2
def rbIdBootDevice : ℕ := 3
def rbIdBootKey : ℕ := 4
def rbIdCpuMode : ℕ := 5
def rbIdBootProtocol : ℕ := 9
def rbIdBooter : ℕ := 13

structure Value where
  name : String
  u32 : UInt32
deriving DecidableEq

structure Env where
  name : String
  id : ℕ
  values : List Value
deriving DecidableEq

def bootDelay : List Value :=
  [⟨"1", 1⟩, ⟨"2", 2⟩, ⟨"3", 3⟩, ⟨"4", 4⟩, ⟨"5", 5⟩, ⟨"6", 6⟩, ⟨"7", 7⟩, ⟨"8", 8⟩, ⟨"9", 9⟩]

def bootDevice : List Value := [⟨"eth", 0⟩, ⟨"nandeth", 1⟩, ⟨"ethnand", 3⟩, ⟨"nand", 5⟩]

def bootKey : List Value := [⟨"any", 0⟩, ⟨"del", 1⟩]

def bootProtocol : List Value := [⟨"bootp", 0⟩, ⟨"dhcp", 1⟩]

def uartSpeed : List Value :=
  [⟨"115200", 0⟩, ⟨"57600", 1⟩, ⟨"38400", 2⟩, ⟨"19200", 3⟩, ⟨"9600", 4⟩, ⟨"4800", 5⟩, ⟨"2400", 6⟩,
    ⟨"1200", 7⟩, ⟨"off", 8⟩]

def cpuMode : List Value := [⟨"powersave", 0⟩, ⟨"regular", 1⟩]

def booter : List Value := [⟨"regular", 0⟩, ⟨"backup", 1⟩]

def envs : List Env :=
  [⟨"boot_delay", rbIdBootDelay, bootDelay⟩, ⟨"boot_device", rbIdBootDevice, bootDevice⟩,
    ⟨"boot_key", rbIdBootKey, bootKey⟩, ⟨"boot_protocol", rbIdBootProtocol, bootProtocol⟩,
    ⟨"booter", rbIdBooter, booter⟩, ⟨"cpu_mode", rbIdCpuMode, cpuMode⟩,
    ⟨"uart_speed", rbIdUartSpeed, uartSpeed⟩]

def poly : BitVec 32 := 0xedb88320#32

/-- cyg_ether_crc32; crc32_tab is the table of the polynomial. -/
def cygEtherCrc32 (s : List Byte) : UInt32 :=
  ⟨Crc.updates poly (0#32 ^^^ 0xffffffff#32) s ^^^ 0xffffffff#32⟩

def getU16 (p0 p1 : Byte) : ℕ := p1.toNat + p0.toNat * 2 ^ 8

def getU32 (buf : List Byte) (off : ℕ) : Except Err UInt32 :=
  if off + 4 ≤ buf.length then .ok (ofBe32 (segment buf off 4)) else .error .outside

def putU32 (buf : List Byte) (off : ℕ) (val : UInt32) : Except Err (List Byte) :=
  if off + 4 ≤ buf.length then .ok (patch buf off (be32 val)) else .error .outside

/-- The loop of rbcfg_find_tag: the length and the place of the tag's data. Both tests of
buflen are the one for the four bytes of a tag's header. -/
def findTagFrom (tagId off : ℕ) (buf : List Byte) : Except Err (ℕ × ℕ) :=
  match buf with
  | len0 :: len1 :: id0 :: id1 :: rest =>
      let len := getU16 len0 len1
      let id := getU16 id0 id1
      if id = rbIdTerminator then .error .notFound
      else if rest.length < len then .error .notFound
      else if id = tagId then .ok (len, off + 4)
      else findTagFrom tagId (off + 4 + len) (rest.drop len)
  | _ => .error .notFound
termination_by buf.length
decreasing_by
  simp only [List.length_drop, List.length_cons]
  omega

/-- rbcfg_find_tag, behind the magic and the CRC. -/
def findTag (buf : List Byte) (tagId : ℕ) : Except Err (ℕ × ℕ) := findTagFrom tagId 8 (buf.drop 8)

def tagGetU32 (buf : List Byte) (id : ℕ) : Except Err UInt32 :=
  match findTag buf id with
  | .error err => .error err
  | .ok (_, tagData) => getU32 buf tagData

def tagSetU32 (buf : List Byte) (id : ℕ) (val : UInt32) : Except Err (List Byte) :=
  match findTag buf id with
  | .error err => .error err
  | .ok (_, tagData) => putU32 buf tagData val

structure File where
  regular : Bool
  data : List Byte
deriving DecidableEq

structure Store where
  mtdDevice : List Byte
  tmpFile : Option File
deriving DecidableEq

def checkTmp (s : Store) : Bool :=
  match s.tmpFile with
  | none => false
  | some f => f.regular && f.data.length == s.mtdDevice.length

/-- The file that rbcfg_load opens. -/
def source (s : Store) : List Byte :=
  match s.tmpFile with
  | none => s.mtdDevice
  | some f => if checkTmp s then f.data else s.mtdDevice

/-- The tests of rbcfg_load; the CRC field of the buffer stays cleared. -/
def checked (buf : List Byte) : Except Err (List Byte) :=
  match getU32 buf 0, getU32 buf 4, putU32 buf 4 0 with
  | .ok magic, .ok crcOrig, .ok cleared =>
      if magic ≠ rbMagicSoft then .error .invalid
      else if cygEtherCrc32 cleared ≠ crcOrig then .error .invalid
      else .ok cleared
  | _, _, _ => .error .outside

def load (s : Store) : Except Err (List Byte) := checked (source s)

/-- What open and write do; a write that returns a number has stored that many bytes. -/
inductive Write
  | openFails
  | fails
  | wrote (n : ℕ)
deriving DecidableEq

def writeOver (w : Write) (old buf : List Byte) : List Byte :=
  match w with
  | .wrote n => overwrite old buf (min n buf.length)
  | _ => old

def writeResult (w : Write) (buf : List Byte) : Except Err (List String) :=
  match w with
  | .wrote n => if n < buf.length then .error .io else .ok []
  | _ => .error .io

/-- The magic and the CRC that rbcfg_update puts in front. -/
def stamped (buf : List Byte) : Except Err (List Byte) :=
  match putU32 buf 0 rbMagicSoft with
  | .error err => .error err
  | .ok buf =>
      match putU32 buf 4 0 with
      | .error err => .error err
      | .ok buf => putU32 buf 4 (cygEtherCrc32 buf)

/-- rbcfg_update; a temporary file that is missing is created, none is truncated. -/
def update (s : Store) (buf : List Byte) (tmp : Bool) (w : Write) :
    Store × Except Err (List String) :=
  match stamped buf with
  | .error err => (s, .error err)
  | .ok buf =>
      if w = .openFails then (s, .error .io)
      else if tmp then
        let f := s.tmpFile.getD ⟨true, []⟩
        ({ s with tmpFile := some { f with data := writeOver w f.data buf } }, writeResult w buf)
      else ({ s with mtdDevice := writeOver w s.mtdDevice buf }, writeResult w buf)

def envFind (env : Env) (name : String) : Option Value :=
  env.values.find? fun v => v.name == name

def envFindU32 (env : Env) (val : UInt32) : Option Value :=
  env.values.find? fun v => v.u32 == val

/-- rbcfg_env_get; the caller turns NULL into RB_ERR_NOTFOUND. -/
def envGet (buf : List Byte) (env : Env) : Except Err String :=
  match tagGetU32 buf env.id with
  | .error err => .error err
  | .ok val =>
      match envFindU32 env val with
      | none => .error .notFound
      | some v => .ok v.name

def envSet (buf : List Byte) (env : Env) (data : String) : Except Err (List Byte) :=
  match envFind env data with
  | none => .error .invalid
  | some v => tagSetU32 buf env.id v.u32

/-- The search for a name that the get and set commands share. -/
def envNamed (name : String) : Option Env := envs.find? fun env => env.name == name

def cmdApply (s : Store) (buf : List Byte) (w : Write) : Store × Except Err (List String) :=
  update s buf false w

def cmdGet (buf : List Byte) : List String → Except Err (List String)
  | [name] =>
      match envNamed name with
      | none => .error .notFound
      | some env =>
          match envGet buf env with
          | .error err => .error err
          | .ok value => .ok [value]
  | _ => .error .invalid

def cmdSet (s : Store) (buf : List Byte) (w : Write) :
    List String → Store × Except Err (List String)
  | [name, data] =>
      match envNamed name with
      | none => (s, .error .invalid)
      | some env =>
          match envSet buf env data with
          | .error err => (s, .error err)
          | .ok buf => update s buf true w
  | _ => (s, .error .invalid)

/-- A pass of the loop of rbcfg_cmd_show. -/
def showEnv (buf : List Byte) (out : List String) (env : Env) : Except Err (List String) :=
  match envGet buf env with
  | .ok value => .ok (out ++ [env.name ++ "=" ++ value])
  | .error .outside => .error .outside
  | .error _ => .ok out

def cmdShow (buf : List Byte) : List String → Except Err (List String)
  | [] => envs.foldlM (showEnv buf) []
  | _ => .error .invalid

inductive Command
  | apply
  | help
  | get
  | set
  | show
deriving DecidableEq

def commands : List (String × Command) :=
  [("apply", .apply), ("help", .help), ("get", .get), ("set", .set), ("show", .show)]

/-- The commands with CMD_FLAG_USES_CFG run on the buffer of rbcfg_open. -/
def exec (s : Store) (cmd : Command) (argv : List String) (w : Write) :
    Store × Except Err (List String) :=
  match cmd, load s with
  | .help, _ => (s, .ok [])
  | _, .error err => (s, .error err)
  | .apply, .ok buf => cmdApply s buf w
  | .get, .ok buf => (s, cmdGet buf argv)
  | .set, .ok buf => cmdSet s buf w argv
  | .show, .ok buf => (s, cmdShow buf argv)

/-- main: the files behind the run, and its output or why it fails. -/
def main (s : Store) (argv : List String) (w : Write) : Store × Except Err (List String) :=
  match argv with
  | [] => (s, .error .usage)
  | name :: argv =>
      match commands.find? fun c => c.1 == name with
      | none => (s, .error .usage)
      | some c => exec s c.2 argv w

theorem getU32_ok {buf : List Byte} {off : ℕ} {v : UInt32} :
    getU32 buf off = .ok v ↔ segment buf off 4 = be32 v := by
  unfold getU32
  constructor
  · intro h
    split at h
    · obtain rfl := Except.ok.inj h
      exact (be32_ofBe32 (length_segment ‹_›)).symm
    · cases h
  · intro h
    have hlen := congrArg List.length h
    rw [be32_length, Lib.segment, List.length_take, List.length_drop] at hlen
    rw [if_pos (by omega), h, ofBe32_be32]

theorem putU32_ok {buf buf' : List Byte} {off : ℕ} {v : UInt32} :
    putU32 buf off v = .ok buf' ↔ off + 4 ≤ buf.length ∧ patch buf off (be32 v) = buf' := by
  unfold putU32
  split
  · simp [*]
  · simp [*]

/-- A configuration as rbcfg_load leaves it in the buffer. -/
structure Blank (buf : List Byte) : Prop where
  room : 8 ≤ buf.length
  magic : segment buf 0 4 = be32 rbMagicSoft
  cleared : segment buf 4 4 = be32 0

/-- The file with the CRC of a buffer. -/
def sealed (buf : List Byte) : List Byte := patch buf 4 (be32 (cygEtherCrc32 buf))

namespace Blank

variable {buf : List Byte} (h : Blank buf)

include h

theorem crcRoom (v : UInt32) : 4 + (be32 v).length ≤ buf.length := h.room

theorem length_sealed : (sealed buf).length = buf.length := length_patch (h.crcRoom _)

theorem sealed_magic : segment (sealed buf) 0 4 = be32 rbMagicSoft := by
  rw [sealed, segment_patch_disjoint (h.crcRoom _) (by omega), h.magic]

theorem sealed_crc : segment (sealed buf) 4 4 = be32 (cygEtherCrc32 buf) :=
  segment_patch (h.crcRoom _)

theorem patch_sealed : patch (sealed buf) 4 (be32 0) = buf := by
  have hlen : (be32 0).length = (be32 (cygEtherCrc32 buf)).length := rfl
  rw [sealed, patch_patch (h.crcRoom _) hlen, ← h.cleared]
  exact patch_segment h.room

theorem stamped_eq : stamped buf = .ok (sealed buf) := by
  have hmagic : putU32 buf 0 rbMagicSoft = .ok buf := by
    refine putU32_ok.mpr ⟨Nat.le_trans (by omega) h.room, ?_⟩
    rw [← h.magic]
    exact patch_segment (Nat.le_trans (by omega) h.room)
  have hclear : putU32 buf 4 0 = .ok buf := by
    refine putU32_ok.mpr ⟨h.room, ?_⟩
    rw [← h.cleared]
    exact patch_segment h.room
  unfold stamped
  rw [hmagic]
  dsimp only
  rw [hclear]
  exact putU32_ok.mpr ⟨h.room, rfl⟩

theorem patch_word {off : ℕ} (v : UInt32) (hoff : 8 ≤ off) (hroom : off + 4 ≤ buf.length) :
    Blank (patch buf off (be32 v)) := by
  have hpiece : off + (be32 v).length ≤ buf.length := hroom
  refine ⟨?_, ?_, ?_⟩
  · rw [length_patch hpiece]
    exact h.room
  · rw [segment_patch_disjoint hpiece (by omega), h.magic]
  · rw [segment_patch_disjoint hpiece (by omega), h.cleared]

end Blank

/-- rbcfg_load accepts what rbcfg_update writes and nothing else. -/
theorem checked_ok {raw buf : List Byte} : checked raw = .ok buf ↔ Blank buf ∧ raw = sealed buf := by
  unfold checked
  constructor
  · intro h
    split at h
    · next magic crcOrig cleared hmagic hcrc hclear =>
      split at h
      · cases h
      · split at h
        · cases h
        · obtain rfl := Except.ok.inj h
          obtain ⟨hroom, rfl⟩ := putU32_ok.mp hclear
          rw [getU32_ok] at hmagic hcrc
          simp only [ne_eq, Decidable.not_not] at *
          subst magic crcOrig
          have hpiece : 4 + (be32 0).length ≤ raw.length := hroom
          refine ⟨⟨?_, ?_, ?_⟩, ?_⟩
          · rw [length_patch hpiece]
            exact hroom
          · rw [segment_patch_disjoint hpiece (by omega), hmagic]
          · exact segment_patch hpiece
          · have hlen (v : UInt32) : (be32 v).length = (be32 0).length := rfl
            rw [sealed, patch_patch hpiece (hlen _), ← hcrc]
            exact (patch_segment hroom).symm
    · cases h
  · rintro ⟨hblank, rfl⟩
    have hmagic := getU32_ok.mpr hblank.sealed_magic
    have hcrc := getU32_ok.mpr hblank.sealed_crc
    have hclear : putU32 (sealed buf) 4 0 = .ok buf := by
      refine putU32_ok.mpr ⟨?_, hblank.patch_sealed⟩
      rw [hblank.length_sealed]
      exact hblank.room
    rw [hmagic, hcrc, hclear]
    dsimp only
    rw [if_neg (by simp), if_neg (by simp)]

theorem stamped_of_checked {raw buf : List Byte} (h : checked raw = .ok buf) :
    stamped buf = .ok raw := by
  obtain ⟨hblank, rfl⟩ := checked_ok.mp h
  exact hblank.stamped_eq

section

variable {id id' off len p : ℕ} {buf : List Byte}

theorem findTagFrom_place (h : findTagFrom id off buf = .ok (len, p)) :
    off + 4 ≤ p ∧ p + len ≤ off + buf.length := by
  fun_induction findTagFrom id off buf with
  | case1 | case2 | case5 => cases h
  | case3 off len0 len1 id0 id1 rest _ _ _ hfit _ =>
    obtain ⟨rfl, rfl⟩ := Prod.mk.inj (Except.ok.inj h)
    simp only [List.length_cons]
    omega
  | case4 off len0 len1 id0 id1 rest _ _ _ hfit _ ih =>
    have hplace := ih h
    simp only [List.length_drop, List.length_cons] at hplace ⊢
    omega

theorem findTagFrom_header (len0 len1 id0 id1 : Byte) (rest : List Byte) :
    findTagFrom id off (len0 :: len1 :: id0 :: id1 :: rest) =
      if getU16 id0 id1 = rbIdTerminator then .error .notFound
      else if rest.length < getU16 len0 len1 then .error .notFound
      else if getU16 id0 id1 = id then .ok (getU16 len0 len1, off + 4)
      else findTagFrom id (off + 4 + getU16 len0 len1) (rest.drop (getU16 len0 len1)) := by
  rw [findTagFrom]

theorem patch_header (a b c d : Byte) (rest piece : List Byte) (q : ℕ) :
    patch (a :: b :: c :: d :: rest) (q + 4) piece = a :: b :: c :: d :: patch rest q piece := by
  rw [patch_cons, patch_cons, patch_cons, patch_cons]

/-- Setting the word of a tag moves no tag. -/
theorem findTagFrom_patch (h : findTagFrom id off buf = .ok (len, p)) (hlen : 4 ≤ len)
    (v : UInt32) :
    findTagFrom id' off (patch buf (p - off) (be32 v)) = findTagFrom id' off buf := by
  fun_induction findTagFrom id off buf with
  | case1 | case2 | case5 => cases h
  | case3 off len0 len1 id0 id1 rest _ _ _ hfit _ =>
    obtain ⟨rfl, rfl⟩ := Prod.mk.inj (Except.ok.inj h)
    have hpiece : 0 + (be32 v).length ≤ rest.length := by
      rw [be32_length]
      omega
    have hplace : off + 4 - off = 0 + 4 := by omega
    have hdrop : (patch rest 0 (be32 v)).drop (getU16 len0 len1) = rest.drop (getU16 len0 len1) :=
      drop_patch_of_le (by rw [be32_length]; omega) hpiece
    rw [hplace, patch_header, findTagFrom_header, findTagFrom_header, length_patch hpiece, hdrop]
  | case4 off len0 len1 id0 id1 rest _ _ _ hfit _ ih =>
    have hplace := findTagFrom_place h
    rw [List.length_drop] at hplace
    set q := p - (off + 4) with hq
    have hpiece : q + (be32 v).length ≤ rest.length := by
      rw [be32_length]
      omega
    have hoff : p - off = q + 4 := by omega
    have hdrop : (patch rest q (be32 v)).drop (getU16 len0 len1) =
        patch (rest.drop (getU16 len0 len1)) (q - getU16 len0 len1) (be32 v) :=
      drop_patch (by omega) hpiece
    have hqoff : p - (off + 4 + getU16 len0 len1) = q - getU16 len0 len1 := by omega
    rw [hoff, patch_header, findTagFrom_header, findTagFrom_header, length_patch hpiece, hdrop,
      ← hqoff, ih h]

/-- The data of one tag lie apart from the word that starts those of another. -/
theorem findTagFrom_apart {len' p' : ℕ} (h : findTagFrom id off buf = .ok (len, p))
    (hlen : 4 ≤ len) (h' : findTagFrom id' off buf = .ok (len', p')) (hne : id ≠ id') :
    p' + 4 ≤ p ∨ p + 4 ≤ p' := by
  fun_induction findTagFrom id off buf with
  | case1 | case2 | case5 => cases h
  | case3 off len0 len1 id0 id1 rest _ _ hend hfit heq =>
    obtain ⟨rfl, rfl⟩ := Prod.mk.inj (Except.ok.inj h)
    rw [findTagFrom_header, if_neg hend, if_neg hfit, if_neg (by omega)] at h'
    have hplace := findTagFrom_place h'
    omega
  | case4 off len0 len1 id0 id1 rest _ _ hend hfit _ ih =>
    have hplace := findTagFrom_place h
    rw [findTagFrom_header, if_neg hend, if_neg hfit] at h'
    split at h'
    · obtain ⟨rfl, rfl⟩ := Prod.mk.inj (Except.ok.inj h')
      omega
    · exact ih h h'

end

section

variable {id len p : ℕ} {buf : List Byte} (h : findTag buf id = .ok (len, p))

include h

theorem findTag_place : 12 ≤ p ∧ p + len ≤ buf.length := by
  have hplace := findTagFrom_place h
  rw [List.length_drop] at hplace
  omega

variable (hlen : 4 ≤ len)

include hlen

theorem findTag_patch (id' : ℕ) (v : UInt32) :
    findTag (patch buf p (be32 v)) id' = findTag buf id' := by
  obtain ⟨hp, hroom⟩ := findTag_place h
  have hpiece : p + (be32 v).length ≤ buf.length := by
    rw [be32_length]
    omega
  rw [findTag, drop_patch (by omega) hpiece]
  exact findTagFrom_patch h hlen v

theorem tagSetU32_eq (v : UInt32) : tagSetU32 buf id v = .ok (patch buf p (be32 v)) := by
  have hroom := (findTag_place h).2
  rw [tagSetU32, h]
  exact putU32_ok.mpr ⟨by omega, rfl⟩

theorem tagGetU32_set (v : UInt32) : tagGetU32 (patch buf p (be32 v)) id = .ok v := by
  have hroom := (findTag_place h).2
  rw [tagGetU32, findTag_patch h hlen, h]
  refine getU32_ok.mpr (segment_patch ?_)
  rw [be32_length]
  omega

theorem tagGetU32_set_ne {id' : ℕ} (hne : id ≠ id') (v : UInt32) :
    tagGetU32 (patch buf p (be32 v)) id' = tagGetU32 buf id' := by
  have hroom := (findTag_place h).2
  have hpiece : p + (be32 v).length ≤ buf.length := by
    rw [be32_length]
    omega
  rw [tagGetU32, tagGetU32, findTag_patch h hlen]
  cases h' : findTag buf id' with
  | error err => rfl
  | ok tag =>
    have hapart := findTagFrom_apart h hlen h' hne
    dsimp only
    rw [getU32, getU32, length_patch hpiece,
      segment_patch_disjoint hpiece (by rw [be32_length]; omega)]

end

section

variable {name data : String} {env : Env} {v : Value}

theorem envNamed_some (h : envNamed name = some env) : env ∈ envs ∧ env.name = name :=
  ⟨List.mem_of_find?_eq_some h, by simpa using List.find?_some h⟩

theorem envFind_some (h : envFind env data = some v) : v ∈ env.values ∧ v.name = data :=
  ⟨List.mem_of_find?_eq_some h, by simpa using List.find?_some h⟩

theorem env_id : ∀ env ∈ envs, ∀ env' ∈ envs, env.id = env'.id → env.name = env'.name := by decide

/-- The names and the words of an option's values belong together one to one. -/
theorem env_value :
    ∀ env ∈ envs, ∀ v ∈ env.values, (envFindU32 env v.u32).map Value.name = some v.name := by
  decide

/-- What rbcfg_env_set stores, rbcfg_env_get names. -/
theorem envGet_set {buf : List Byte} (henv : env ∈ envs) (hv : envFind env data = some v)
    (hget : tagGetU32 buf env.id = .ok v.u32) : envGet buf env = .ok data := by
  obtain ⟨hmem, rfl⟩ := envFind_some hv
  have hvalue := env_value env henv v hmem
  rw [envGet, hget]
  dsimp only
  cases hfind : envFindU32 env v.u32 with
  | none =>
    rw [hfind] at hvalue
    cases hvalue
  | some w =>
    rw [hfind] at hvalue
    rw [← Option.some.inj hvalue]

end

end Iot7688.Rbcfg
