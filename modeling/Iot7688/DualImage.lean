import Iot7688.EnvPersist
import Iot7688.Lib.ByteOrder
import Iot7688.SpiFlashRange

/-!
Dual image boot: check_image_validation and copy_image of board.c, with images and
environment in SPI flash. Each half of the flash holds an image behind the room of the boot
partitions. The boot keeps a record of what raspi_read was asked for and of the copy that was
made; a string function given a null pointer has no result. A length from 2^31 on would be
negative in raspi_read; it is recorded like any other that leaves its partition. A copy leaves
a prefix of the copied image over the other one, all of it when no allocation fails.
-/
namespace Iot7688.DualImage

open Lib NorChip SpiFlash

inductive Image
  | one
  | two
  deriving DecidableEq

def Image.other : Image → Image
  | .one => .two
  | .two => .one

/-- Every image is the one or the other. -/
theorem Image.forall_of (P : Image → Prop) (i : Image) (hi : P i) (hother : P i.other) :
    ∀ j, P j := by
  intro j
  cases i <;> cases j <;> assumption

/-- A chip of the table that is large enough for the flash component of the
build; half is PHYS_FLASH2_1 - CFG_FLASH_BASE. -/
structure Board where
  chip : ChipInfo
  half : ℕ
  listed : chip ∈ chipsData
  component : half ∈ [0x100000, 0x200000, 0x400000, 0x800000]
  fits : 2 * half ≤ chip.size

def bootSize : ℕ := cfgBootloaderSize + cfgConfigSize + cfgFactorySize

namespace Board

/-- CFG_KERN_ADDR and CFG_KERN2_ADDR, less CFG_FLASH_BASE. -/
def kernAddr (b : Board) : Image → ℕ
  | .one => bootSize
  | .two => b.half + bootSize

/-- CFG_KERN_SIZE and CFG_KERN2_SIZE. -/
def kernSize (b : Board) : ℕ := b.half - bootSize

def image (b : Board) (f : Flash) (i : Image) : Mem := f.nor.mem.shift (b.kernAddr i)

end Board

/-- IH_MAGIC. -/
def ihMagicNumber : UInt32 := 0x27051956

/-- sizeof(image_header_t). -/
def headerSize : ℕ := 64

/-- ntohl of the word at an offset of the header. -/
def ihWord (hdr : Mem) (i : ℕ) : UInt32 := ofBe32 [hdr i, hdr (i + 1), hdr (i + 2), hdr (i + 3)]

def ihMagic (hdr : Mem) : UInt32 := ihWord hdr 0
def ihHcrc (hdr : Mem) : UInt32 := ihWord hdr 4
def ihSize (hdr : Mem) : UInt32 := ihWord hdr 12
def ihDcrc (hdr : Mem) : UInt32 := ihWord hdr 24

def crcOf (m : Mem) (len : ℕ) : BitVec 32 := Env.crc32 0 ((List.range len).map m)

/-- The checksum of the header with ih_hcrc = 0. -/
def headerChecksum (hdr : Mem) : BitVec 32 := crcOf (hdr.fill 4 4 0) headerSize

/-- Magic number and header checksum; the second is skipped after the first. -/
def headerBroken (hdr : Mem) : Bool :=
  ihMagic hdr != ihMagicNumber || headerChecksum hdr != (ihHcrc hdr).toBitVec

/-- A raspi_read of check_image_validation or copy_image, and the image it is for. -/
structure Read where
  image : Image
  offs : ℕ
  len : ℕ

/-- A call of copy_image: the image that is copied, what raspi_erase_write was
given and what it returned. -/
structure Copy where
  dir : Image
  buf : Mem
  len : ℕ
  ret : ℤ

structure Boot where
  flash : Flash
  env : Env.State
  reads : List Read
  copied : Option Copy

section

variable (k : Controller) (b : Board) (consoleAssign : ℕ → Env.CStr → ℤ)

/-- Read into fresh memory. -/
def Boot.read (t : Boot) (i : Image) (skip len : ℕ) : Mem × Boot :=
  let offs := b.kernAddr i + skip
  ((raspiRead k b.chip t.flash.nor scratch offs len).2,
    { t with reads := t.reads ++ [⟨i, offs, len⟩] })

def image1Stable : Env.CStr := ⟨Env.ascii "Image1Stable", by decide⟩
def image1Try : Env.CStr := ⟨Env.ascii "Image1Try", by decide⟩

/-- The string "0". -/
def zeroText : Env.CStr := ⟨Env.ascii "0", by decide⟩

/-- Its result is not looked at. -/
def setenv (s : Env.State) (varname varvalue : Env.CStr) : Option Env.State :=
  (Env.doSetenv consoleAssign s
    [some ⟨Env.ascii "setenv", by decide⟩, some varname, some varvalue]).map Prod.snd

/-- dir=1: Image1 to Image2, dir=2: Image2 to Image1; no caller passes another. -/
def copyImage (dir : Image) (imageSize : ℕ) (t : Boot) : Option (ℤ × Boot) :=
  let (buf, t) := t.read k b dir 0 imageSize
  let wr := raspiEraseWrite k b.chip t.flash buf (b.kernAddr dir.other) imageSize
  let t := { t with flash := wr.2, copied := some ⟨dir, buf, imageSize, wr.1⟩ }
  match dir with
  | .one => some (wr.1, t)
  | .two =>
      if wr.1 = 0 then do
        let env ← setenv consoleAssign t.env image1Stable zeroText
        let env ← setenv consoleAssign env image1Try zeroText
        let nor := (Env.saveenv k b.chip t.flash.nor env.env).2
        some (wr.1, { t with env := env, flash := { t.flash with nor := nor } })
      else some (wr.1, t)

/-- The data checksum, skipped after a broken header. Nothing has compared
ih_size with a limit yet. -/
def checkData (i : Image) (hdr : Mem) (broken : Bool) (t : Boot) : Bool × Boot :=
  if broken then (true, t)
  else
    let len := (ihSize hdr).toNat
    let (data, t) := t.read k b i headerSize len
    (crcOf data len != (ihDcrc hdr).toBitVec, t)

def maxTryTimes : ℕ := 3

/-- Image1 is not stable and was tried too often. The pointers of getenv go
to strcmp and simple_strtoul as they are. -/
def triedTooOften (data : Env.Data) (broken1 : Bool) : Option Bool := do
  let stable ← (← Env.getenvString data image1Stable)
  let tries ← Env.getenvString data image1Try
  if stable = Env.ascii "1" then return false
  else
    let tries ← tries
    return decide ((Env.simpleStrtoul tries 10).1 > maxTryTimes) && !broken1

/-- One image is broken and the other, with this header, is not. The length is
an unsigned long. -/
def restore (dir : Image) (hdr : Mem) (t : Boot) : Option (ℤ × Boot) := do
  let len := u32 ((ihSize hdr).toNat + headerSize)
  if len > b.kernSize then return (0, t)
  else
    let (_, t) ← copyImage k b consoleAssign dir len t
    return (0, t)

/-- From the line with both verdicts on. -/
def repair (broken1 broken2 : Bool) (hdr1 hdr2 : Mem) (t : Boot) : Option (ℤ × Boot) :=
  if broken1 && !broken2 then restore k b consoleAssign .two hdr2 t
  else if !broken1 && broken2 then restore k b consoleAssign .one hdr1 t
  else if broken1 && broken2 then some (0, t)
  else some (-1, t)

def checkImageValidation (flash : Flash) (env : Env.State) : Option (ℤ × Boot) := do
  let t : Boot := ⟨flash, env, [], none⟩
  let (hdr1, t) := t.read k b .one 0 headerSize
  let (hdr2, t) := t.read k b .two 0 headerSize
  let (broken1, t) := checkData k b .one hdr1 (headerBroken hdr1) t
  let (broken2, t) := checkData k b .two hdr2 (headerBroken hdr2) t
  let tooOften ← triedTooOften t.env.env.data broken1
  repair k b consoleAssign (broken1 || tooOften) broken2 hdr1 hdr2 t

end

/-- An image that passes the first two checks. -/
structure HeaderPasses (img : Mem) : Prop where
  magic : ihMagic img = ihMagicNumber
  checksum : headerChecksum img = (ihHcrc img).toBitVec

/-- An image that passes all checks. -/
structure Passes (img : Mem) : Prop extends HeaderPasses img where
  data : crcOf (img.shift headerSize) (ihSize img).toNat = (ihDcrc img).toBitVec

instance (img : Mem) : Decidable (HeaderPasses img) :=
  decidable_of_iff (ihMagic img = ihMagicNumber ∧ headerChecksum img = (ihHcrc img).toBitVec)
    ⟨fun h => ⟨h.1, h.2⟩, fun h => ⟨h.magic, h.checksum⟩⟩

instance (img : Mem) : Decidable (Passes img) :=
  decidable_of_iff (HeaderPasses img ∧
      crcOf (img.shift headerSize) (ihSize img).toNat = (ihDcrc img).toBitVec)
    ⟨fun h => ⟨h.1, h.2⟩, fun h => ⟨h.toHeaderPasses, h.data⟩⟩

/-- The header and its ih_size data bytes. -/
def imageLen (img : Mem) : ℕ := (ihSize img).toNat + headerSize

/-- Image1 is not stable and its counter is above the limit. -/
def Worn (es : List Env.Entry) : Prop :=
  ∃ stable tries, Env.lookup es image1Stable.bytes = some stable ∧ stable ≠ Env.ascii "1" ∧
    Env.lookup es image1Try.bytes = some tries ∧ maxTryTimes < (Env.simpleStrtoul tries 10).1

/-- The bytes of the environment in the flash. -/
def InEnv (x : ℕ) : Prop := Env.flashAddr ≤ x ∧ x < Env.flashAddr + Env.cfgEnvSize

/-- What the recovery is for. -/
structure Recovers (k : Controller) (b : Board) (es : List Env.Entry) (flash : Flash) (t : Boot) :
    Prop where
  reads : ∀ r ∈ t.reads,
    b.kernAddr r.image ≤ r.offs ∧ r.offs + r.len ≤ b.kernAddr r.image + b.kernSize
  idle : t.copied = none → t.flash = flash
  copies : ∀ w, t.copied = some w →
    Passes (b.image flash w.dir) ∧
      (¬Passes (b.image flash w.dir.other) ∨ w.dir.other = .one ∧ Worn es) ∧
      w.len = imageLen (b.image flash w.dir) ∧ (∀ i, i < w.len → w.buf i = b.image flash w.dir i) ∧
      w.ret = (raspiEraseWrite k b.chip flash w.buf (b.kernAddr w.dir.other) w.len).1 ∧
      ∀ x, ¬InEnv x → t.flash.nor.mem x =
        (raspiEraseWrite k b.chip flash w.buf (b.kernAddr w.dir.other) w.len).2.nor.mem x
  success : ∀ w, t.copied = some w → w.ret = 0 → ∀ i, Passes (b.image t.flash i)
  keeps : ∀ i, Passes (b.image flash i) → Passes (b.image t.flash i)
  frame : ∀ w, t.copied = some w → ∀ x, ¬InEnv x →
    (x < b.kernAddr w.dir.other ∨ b.kernAddr w.dir.other + b.kernSize ≤ x) →
      t.flash.nor.mem x = flash.nor.mem x

theorem ihWord_congr {a b : Mem} {i : ℕ} (h : ∀ j, j < headerSize → a j = b j)
    (hi : i + 3 < headerSize) : ihWord a i = ihWord b i := by
  unfold ihWord
  rw [h i (by omega), h (i + 1) (by omega), h (i + 2) (by omega), h (i + 3) hi]

theorem crcOf_congr {a b : Mem} {len : ℕ} (h : ∀ j, j < len → a j = b j) :
    crcOf a len = crcOf b len := by
  refine congrArg (Env.crc32 0) (List.map_congr_left ?_)
  intro j hj
  exact h j (List.mem_range.mp hj)

section

variable {a b : Mem} (h : ∀ j, j < headerSize → a j = b j)
include h

theorem ihSize_congr : ihSize a = ihSize b := ihWord_congr h (by decide)

theorem ihDcrc_congr : ihDcrc a = ihDcrc b := ihWord_congr h (by decide)

theorem headerPasses_congr (ha : HeaderPasses a) : HeaderPasses b := by
  have hmagic : ihMagic a = ihMagic b := ihWord_congr h (by decide)
  have hhcrc : ihHcrc a = ihHcrc b := ihWord_congr h (by decide)
  have hsum : headerChecksum a = headerChecksum b := by
    apply crcOf_congr
    intro j hj
    unfold Mem.fill
    rw [h j hj]
  constructor
  · rw [← hmagic]
    exact ha.magic
  · rw [← hsum, ← hhcrc]
    exact ha.checksum

end

theorem headerSize_le_imageLen (img : Mem) : headerSize ≤ imageLen img := Nat.le_add_left _ _

/-- Only the bytes of an image decide whether it passes. -/
theorem passes_congr {a b : Mem} (h : ∀ j, j < imageLen a → a j = b j) (ha : Passes a) :
    Passes b := by
  have hhdr : ∀ j, j < headerSize → a j = b j := fun j hj =>
    h j (lt_of_lt_of_le hj (headerSize_le_imageLen a))
  refine ⟨headerPasses_congr hhdr ha.toHeaderPasses, ?_⟩
  rw [← ihSize_congr hhdr, ← ihDcrc_congr hhdr, ← ha.data]
  apply crcOf_congr
  intro j hj
  rw [Mem.shift_apply, Mem.shift_apply, h (headerSize + j) (by unfold imageLen; omega)]

theorem headerBroken_eq (img : Mem) : headerBroken img = !decide (HeaderPasses img) := by
  by_cases himg : HeaderPasses img
  · rw [decide_eq_true himg, headerBroken, himg.magic, himg.checksum]
    simp
  · rw [decide_eq_false himg, Bool.not_false, headerBroken, Bool.or_eq_true, bne_iff_ne,
      bne_iff_ne]
    by_contra hboth
    rw [not_or, not_not, not_not] at hboth
    exact himg ⟨hboth.1, hboth.2⟩

namespace Board

variable (b : Board)

theorem bootSize_lt_half : bootSize < b.half := by
  have hall : ∀ n ∈ [0x100000, 0x200000, 0x400000, 0x800000], bootSize < n := by decide
  exact hall b.half b.component

theorem kernEnd_le (i : Image) : b.kernAddr i + b.kernSize ≤ b.chip.size := by
  have hboot := b.bootSize_lt_half
  have hfits := b.fits
  unfold kernSize
  cases i with
  | one =>
    show bootSize + (b.half - bootSize) ≤ b.chip.size
    omega
  | two =>
    show b.half + bootSize + (b.half - bootSize) ≤ b.chip.size
    omega

theorem sector_dvd_kernAddr (i : Image) : b.chip.sectorSize ∣ b.kernAddr i := by
  have hall : ∀ n ∈ [0x100000, 0x200000, 0x400000, 0x800000],
      Env.cfgEnvSectSize ∣ n + bootSize := by
    decide
  rw [Env.chipsData_sector b.chip b.listed]
  cases i with
  | one => exact show Env.cfgEnvSectSize ∣ bootSize by decide
  | two => exact hall b.half b.component

/-- The environment is in front of both images. -/
theorem inEnv_lt {x : ℕ} (hx : InEnv x) (i : Image) : x < b.kernAddr i := by
  have hend : Env.flashAddr + Env.cfgEnvSize ≤ bootSize := by decide
  have hle : bootSize ≤ b.kernAddr i := by
    cases i
    · exact le_refl _
    · exact Nat.le_add_left _ _
  exact lt_of_lt_of_le hx.2 (hend.trans hle)

theorem not_inEnv (i : Image) (j : ℕ) : ¬InEnv (b.kernAddr i + j) := by
  intro henv
  have := b.inEnv_lt henv i
  omega

/-- The partitions do not overlap. -/
theorem apart (i : Image) {j : ℕ} (hj : j < b.kernSize) :
    b.kernAddr i + j < b.kernAddr i.other ∨
      b.kernAddr i.other + b.kernSize ≤ b.kernAddr i + j := by
  have hboot := b.bootSize_lt_half
  unfold kernSize at *
  cases i with
  | one =>
    left
    show bootSize + j < b.half + bootSize
    omega
  | two =>
    right
    show bootSize + (b.half - bootSize) ≤ b.half + bootSize + j
    omega

end Board

section

variable (k : Controller) (b : Board)

theorem Boot.read_eq (t : Boot) (i : Image) (skip len : ℕ)
    (hfit : b.kernAddr i + skip + len ≤ b.chip.size) :
    t.read k b i skip len =
      (scratch.copy 0 len ((b.image t.flash i).shift skip),
        { t with reads := t.reads ++ [⟨i, b.kernAddr i + skip, len⟩] }) := by
  unfold Boot.read
  dsimp only
  rw [raspiRead_spec k b.chip t.flash.nor scratch _ len hfit, Board.image, Mem.shift_shift]

/-- The read for the data checksum. -/
def dataReads (i : Image) (img : Mem) : List Read :=
  if HeaderPasses img then [⟨i, b.kernAddr i + headerSize, (ihSize img).toNat⟩] else []

/-- What checkData reads, and its verdict on an image that fits. -/
theorem checkData_spec {i : Image} {hdr : Mem} {t : Boot}
    (hhdr : ∀ j, j < headerSize → hdr j = b.image t.flash i j) :
    (checkData k b i hdr (headerBroken hdr) t).2 =
        { t with reads := t.reads ++ dataReads b i (b.image t.flash i) } ∧
      ((HeaderPasses (b.image t.flash i) → imageLen (b.image t.flash i) ≤ b.kernSize) →
        (checkData k b i hdr (headerBroken hdr) t).1 = !decide (Passes (b.image t.flash i))) := by
  set img := b.image t.flash i with himg
  have hiff : HeaderPasses hdr ↔ HeaderPasses img :=
    ⟨headerPasses_congr hhdr, headerPasses_congr fun j hj => (hhdr j hj).symm⟩
  unfold checkData dataReads
  rw [headerBroken_eq]
  by_cases hpass : HeaderPasses img
  · rw [decide_eq_true (hiff.mpr hpass), Bool.not_true, if_neg Bool.false_ne_true, if_pos hpass,
      ihSize_congr hhdr, ihDcrc_congr hhdr]
    refine ⟨rfl, fun hsize => ?_⟩
    have hfit : b.kernAddr i + headerSize + (ihSize img).toNat ≤ b.chip.size := by
      have hend := b.kernEnd_le i
      have hlen := hsize hpass
      unfold imageLen at hlen
      omega
    have hcrc : crcOf (scratch.copy 0 (ihSize img).toNat (img.shift headerSize))
        (ihSize img).toNat = crcOf (img.shift headerSize) (ihSize img).toNat :=
      crcOf_congr fun j hj => Mem.copy_start _ _ hj
    dsimp only
    rw [Boot.read_eq k b t i headerSize _ hfit, ← himg, hcrc, bne, beq_eq_decide]
    exact congrArg not (decide_eq_decide.mpr ⟨fun h => ⟨hpass, h⟩, fun h => h.data⟩)
  · have hfail : ¬Passes img := fun h => hpass h.toHeaderPasses
    rw [decide_eq_false fun h => hpass (hiff.mp h), Bool.not_false, if_pos rfl, if_neg hpass,
      List.append_nil, decide_eq_false hfail]
    exact ⟨rfl, fun _ => rfl⟩

/-- The reads of the checks. -/
def checkReads (flash : Flash) : List Read :=
  [⟨.one, b.kernAddr .one, headerSize⟩, ⟨.two, b.kernAddr .two, headerSize⟩] ++
    dataReads b .one (b.image flash .one) ++ dataReads b .two (b.image flash .two)

variable (consoleAssign : ℕ → Env.CStr → ℤ)

/-- The checks in front of the last decision: both headers, and the verdicts on
images that fit. -/
theorem checkImageValidation_checks (flash : Flash) (env : Env.State) :
    ∃ (hdr1 hdr2 : Mem) (broken1 broken2 : Bool),
      (∀ j, j < headerSize → hdr1 j = b.image flash .one j) ∧
      (∀ j, j < headerSize → hdr2 j = b.image flash .two j) ∧
      ((∀ i, HeaderPasses (b.image flash i) → imageLen (b.image flash i) ≤ b.kernSize) →
        broken1 = !decide (Passes (b.image flash .one)) ∧
          broken2 = !decide (Passes (b.image flash .two))) ∧
      checkImageValidation k b consoleAssign flash env =
        (triedTooOften env.env.data broken1).bind fun tooOften =>
          repair k b consoleAssign (broken1 || tooOften) broken2 hdr1 hdr2
            ⟨flash, env, checkReads b flash, none⟩ := by
  have hfit (i : Image) : b.kernAddr i + 0 + headerSize ≤ b.chip.size := by
    have hend := b.kernEnd_le i
    have hboot := b.bootSize_lt_half
    have hroom : headerSize ≤ b.kernSize := by
      have hall : ∀ n ∈ [0x100000, 0x200000, 0x400000, 0x800000], headerSize ≤ n - bootSize := by
        decide
      exact hall b.half b.component
    omega
  have hhdr (i : Image) : ∀ j, j < headerSize →
      scratch.copy 0 headerSize ((b.image flash i).shift 0) j = b.image flash i j := by
    intro j hj
    rw [Mem.copy_start _ _ hj, Mem.shift_apply, Nat.zero_add]
  unfold checkImageValidation
  dsimp only
  rw [Boot.read_eq k b _ .one 0 headerSize (hfit .one)]
  dsimp only
  rw [Boot.read_eq k b _ .two 0 headerSize (hfit .two)]
  dsimp only
  set hdr1 := scratch.copy 0 headerSize ((b.image flash .one).shift 0)
  set hdr2 := scratch.copy 0 headerSize ((b.image flash .two).shift 0)
  set t0 : Boot := ⟨flash, env, [] ++ [⟨.one, b.kernAddr .one + 0, headerSize⟩] ++
    [⟨.two, b.kernAddr .two + 0, headerSize⟩], none⟩ with ht0
  obtain ⟨hboot1, hverdict1⟩ := checkData_spec k b (t := t0) (hhdr .one)
  rcases hdata1 : checkData k b .one hdr1 (headerBroken hdr1) t0 with ⟨broken1, t1⟩
  rw [hdata1] at hboot1 hverdict1
  dsimp only at hboot1 hverdict1
  subst hboot1
  obtain ⟨hboot2, hverdict2⟩ := checkData_spec k b
    (t := { t0 with reads := t0.reads ++ dataReads b .one (b.image t0.flash .one) }) (hhdr .two)
  rcases hdata2 : checkData k b .two hdr2 (headerBroken hdr2)
    { t0 with reads := t0.reads ++ dataReads b .one (b.image t0.flash .one) } with ⟨broken2, t2⟩
  rw [hdata2] at hboot2 hverdict2
  dsimp only at hboot2 hverdict2
  subst hboot2
  refine ⟨hdr1, hdr2, broken1, broken2, hhdr .one, hhdr .two, ?_, ?_⟩
  · intro hsizes
    exact ⟨hverdict1 (hsizes .one), hverdict2 (hsizes .two)⟩
  · rfl

/-- The variables that are looked at are set. -/
def Defined (es : List Env.Entry) : Prop :=
  ∃ stable, Env.lookup es image1Stable.bytes = some stable ∧
    (stable = Env.ascii "1" ∨ ∃ tries, Env.lookup es image1Try.bytes = some tries)

theorem triedTooOften_eq {data : Env.Data} {es : List Env.Entry} (h : Env.Holds data es)
    (broken1 : Bool) :
    triedTooOften data broken1 =
      (Env.lookup es image1Stable.bytes).bind fun stable =>
        if stable = Env.ascii "1" then some false
        else (Env.lookup es image1Try.bytes).bind fun tries =>
          some (decide ((Env.simpleStrtoul tries 10).1 > maxTryTimes) && !broken1) := by
  obtain ⟨rest, hlay⟩ := h.layout
  unfold triedTooOften
  rw [Env.getenvString_at es rest image1Stable (by decide) h.distinct hlay,
    Env.getenvString_at es rest image1Try (by decide) h.distinct hlay]
  rfl

theorem triedTooOften_of_defined {data : Env.Data} {es : List Env.Entry} (h : Env.Holds data es)
    (hd : Defined es) :
    ∃ worn : Bool, (worn = true ↔ Worn es) ∧
      ∀ broken1, triedTooOften data broken1 = some (worn && !broken1) := by
  obtain ⟨stable, hstable, hcase⟩ := hd
  by_cases hone : stable = Env.ascii "1"
  · refine ⟨false, ⟨fun hf => absurd hf Bool.false_ne_true, ?_⟩, fun broken1 => ?_⟩
    · rintro ⟨stable', _, hstable', hne, _⟩
      obtain rfl : stable = stable' := Option.some.inj (hstable.symm.trans hstable')
      exact absurd hone hne
    · rw [triedTooOften_eq h, hstable, Option.bind_some, if_pos hone, Bool.false_and]
  · obtain ⟨tries, htries⟩ := hcase.resolve_left hone
    refine ⟨decide ((Env.simpleStrtoul tries 10).1 > maxTryTimes), ?_, fun broken1 => ?_⟩
    · rw [decide_eq_true_iff]
      constructor
      · intro hgt
        exact ⟨stable, tries, hstable, hone, htries, hgt⟩
      · rintro ⟨_, tries', _, _, htries', hgt⟩
        obtain rfl : tries = tries' := Option.some.inj (htries.symm.trans htries')
        exact hgt
    · rw [triedTooOften_eq h, hstable, Option.bind_some, if_neg hone, htries, Option.bind_some]

theorem defined_of_triedTooOften {data : Env.Data} {es : List Env.Entry} (h : Env.Holds data es)
    {broken1 r : Bool} (hr : triedTooOften data broken1 = some r) : Defined es := by
  rw [triedTooOften_eq h, Option.bind_eq_some_iff] at hr
  obtain ⟨stable, hstable, hr⟩ := hr
  refine ⟨stable, hstable, ?_⟩
  by_cases hone : stable = Env.ascii "1"
  · exact Or.inl hone
  · rw [if_neg hone, Option.bind_eq_some_iff] at hr
    obtain ⟨tries, htries, _⟩ := hr
    exact Or.inr ⟨tries, htries⟩

theorem setenv_defined {s : Env.State} {es : List Env.Entry} (name : Env.CStr)
    (h : Env.Holds s.env.data es) (hname : Env.equals ∉ name.bytes)
    (hplain : name.bytes ∉ Env.handledNames) :
    ∃ s' es', setenv consoleAssign s name zeroText = some s' ∧ Env.Holds s'.env.data es' := by
  obtain ⟨ret, s', es', hret, hes'⟩ := Env.doSetenv_defined consoleAssign
    (some ⟨Env.ascii "setenv", by decide⟩) zeroText h hname hplain
  refine ⟨s', es', ?_, hes'⟩
  unfold setenv
  rw [hret]
  rfl

/-- What a call of copy_image has read, reported and written. -/
structure CopyRun (dir : Image) (len : ℕ) (buf : Mem) (t t' : Boot) : Prop where
  reads : t'.reads = t.reads ++ [⟨dir, b.kernAddr dir, len⟩]
  copied : t'.copied = some ⟨dir, buf, len,
    (raspiEraseWrite k b.chip t.flash buf (b.kernAddr dir.other) len).1⟩
  source : ∀ j, j < len → buf j = b.image t.flash dir j
  mem : ∀ x, ¬InEnv x → t'.flash.nor.mem x =
    (raspiEraseWrite k b.chip t.flash buf (b.kernAddr dir.other) len).2.nor.mem x

theorem bootSize_le_chip {len : ℕ} (hle : len ≤ b.kernSize) : len + bootSize ≤ b.chip.size := by
  have hboot := b.bootSize_lt_half
  have hfits := b.fits
  unfold Board.kernSize at hle
  omega

theorem copyImage_run (dir : Image) {len : ℕ} {t : Boot} {es : List Env.Entry}
    (hle : len ≤ b.kernSize) (hu : t.flash.nor.Unprotected) (h : Env.Holds t.env.env.data es) :
    ∃ ret buf t', copyImage k b consoleAssign dir len t = some (ret, t') ∧
      CopyRun k b dir len buf t t' := by
  have hend := b.kernEnd_le dir
  have hend' := b.kernEnd_le dir.other
  unfold copyImage
  rw [Boot.read_eq k b t dir 0 len (by omega)]
  dsimp only
  set buf := scratch.copy 0 len ((b.image t.flash dir).shift 0) with hbuf
  have hsource : ∀ j, j < len → buf j = b.image t.flash dir j := by
    intro j hj
    rw [hbuf, Mem.copy_start _ _ hj, Mem.shift_apply, Nat.zero_add]
  set wr := raspiEraseWrite k b.chip t.flash buf (b.kernAddr dir.other) len with hwr
  cases dir with
  | one => exact ⟨wr.1, buf, _, rfl, ⟨rfl, rfl, hsource, fun _ _ => rfl⟩⟩
  | two =>
    dsimp only
    by_cases hret : wr.1 = 0
    · rw [if_pos hret]
      obtain ⟨env1, es1, hset1, hes1⟩ := setenv_defined consoleAssign image1Stable h
        (by decide) (by decide)
      obtain ⟨env2, es2, hset2, _⟩ := setenv_defined consoleAssign image1Try hes1
        (by decide) (by decide)
      have hun : wr.2.nor.Unprotected := by
        rw [hwr, raspiEraseWrite_of_limit k b.chip t.flash buf _ len (bootSize_le_chip b hle)]
          at hret ⊢
        exact ((eraseWriteLoop_spec k b.chip t.flash buf _ len hu (by omega)).1 hret).1
      obtain ⟨_, _, hsave⟩ := Env.saveenv_spec k b.chip b.listed wr.2.nor env2.env hun
      rw [hset1, Option.bind_eq_bind, Option.bind_some, hset2, Option.bind_some]
      refine ⟨wr.1, buf, _, rfl, ⟨rfl, rfl, hsource, fun x hx => ?_⟩⟩
      show (Env.saveenv k b.chip wr.2.nor env2.env).2.mem x = wr.2.nor.mem x
      rw [hsave]
      apply Mem.copy_outside
      unfold InEnv at hx
      omega
    · rw [if_neg hret]
      exact ⟨wr.1, buf, _, rfl, ⟨rfl, rfl, hsource, fun _ _ => rfl⟩⟩

/-- The other image after n bytes of this one were copied over it. -/
def overlay (flash : Flash) (dir : Image) (n : ℕ) : Mem :=
  (b.image flash dir.other).copy 0 n (b.image flash dir)

section

variable {k b} {dir : Image} {len : ℕ} {buf : Mem} {t t' : Boot}
  (run : CopyRun k b dir len buf t t') (hpos : 0 < len) (hle : len ≤ b.kernSize)
  (hu : t.flash.nor.Unprotected)
include run hpos hle hu

/-- A copy stores a prefix of the image, and reports no error when that is all. -/
theorem CopyRun.ret_iff {w : Copy} (hw : t'.copied = some w) :
    w.ret = 0 ↔ stored b.chip t.flash.heap len = len := by
  have hend := b.kernEnd_le dir.other
  rw [run.copied] at hw
  obtain rfl := Option.some.inj hw
  rw [raspiEraseWrite_of_limit k b.chip t.flash buf _ len (bootSize_le_chip b hle)]
  exact (eraseWriteLoop_stored k b.chip t.flash buf hu (b.sector_dvd_kernAddr dir.other)
    (by omega) hpos).1

theorem CopyRun.mem_eq {x : ℕ} (hx : ¬InEnv x) :
    t'.flash.nor.mem x =
      t.flash.nor.mem.copy (b.kernAddr dir.other) (stored b.chip t.flash.heap len) buf x := by
  have hend := b.kernEnd_le dir.other
  rw [run.mem x hx, raspiEraseWrite_of_limit k b.chip t.flash buf _ len (bootSize_le_chip b hle)]
  exact congrFun (eraseWriteLoop_stored k b.chip t.flash buf hu
    (b.sector_dvd_kernAddr dir.other) (by omega) hpos).2 x

theorem CopyRun.image_other :
    b.image t'.flash dir.other = overlay b t.flash dir (stored b.chip t.flash.heap len) := by
  have hstored := stored_le b.chip t.flash.heap len
  funext j
  rw [Board.image, Mem.shift_apply, run.mem_eq hpos hle hu (b.not_inEnv dir.other j)]
  by_cases hj : j < stored b.chip t.flash.heap len
  · rw [Mem.copy_inside _ _ hj, overlay, Mem.copy_start _ _ hj]
    exact run.source j (lt_of_lt_of_le hj hstored)
  · rw [Mem.copy_outside _ _ (Or.inr (by omega)), overlay, Mem.copy_outside _ _ (Or.inr (by omega))]
    rfl

theorem CopyRun.frame {x : ℕ} (hx : ¬InEnv x)
    (hout : x < b.kernAddr dir.other ∨ b.kernAddr dir.other + b.kernSize ≤ x) :
    t'.flash.nor.mem x = t.flash.nor.mem x := by
  have hstored := stored_le b.chip t.flash.heap len
  rw [run.mem_eq hpos hle hu hx]
  exact Mem.copy_outside _ _ (by omega)

/-- The image that is copied stays as it is. -/
theorem CopyRun.image_source {j : ℕ} (hj : j < b.kernSize) :
    b.image t'.flash dir j = b.image t.flash dir j :=
  run.frame hpos hle hu (b.not_inEnv dir j) (b.apart dir hj)

end

/-- The condition for the recovery: no passing header asks for more than its
partition, the variables are set, and where a worn Image1 that passes is to be
replaced, a copy torn between its two passes leaves an image that passes too. -/
structure Sound (es : List Env.Entry) (flash : Flash) : Prop where
  sizes : ∀ i, HeaderPasses (b.image flash i) → imageLen (b.image flash i) ≤ b.kernSize
  defined : Defined es
  intact : Worn es → (∀ i, Passes (b.image flash i)) →
    Torn b.chip flash.heap (imageLen (b.image flash .two)) →
      Passes (overlay b flash .two (imageLen (b.image flash .two) -
        inBlock b.chip (imageLen (b.image flash .two))))

/-- A read of a partition stays in it. -/
def Inside (r : Read) : Prop :=
  b.kernAddr r.image ≤ r.offs ∧ r.offs + r.len ≤ b.kernAddr r.image + b.kernSize

variable {k b consoleAssign} {es : List Env.Entry} {flash : Flash}

theorem headerSize_le_kernSize : headerSize ≤ b.kernSize := by
  have hall : ∀ n ∈ [0x100000, 0x200000, 0x400000, 0x800000], headerSize ≤ n - bootSize := by
    decide
  exact hall b.half b.component

theorem mem_dataReads {i : Image} {img : Mem} {r : Read} (hr : r ∈ dataReads b i img) :
    HeaderPasses img ∧ r = ⟨i, b.kernAddr i + headerSize, (ihSize img).toNat⟩ := by
  unfold dataReads at hr
  split at hr
  · next hpass => exact ⟨hpass, List.mem_singleton.mp hr⟩
  · exact absurd hr List.not_mem_nil

/-- The reads of the checks stay in the partitions exactly when the sizes do. -/
theorem checkReads_inside :
    (∀ r ∈ checkReads b flash, Inside b r) ↔
      ∀ i, HeaderPasses (b.image flash i) → imageLen (b.image flash i) ≤ b.kernSize := by
  have hroom := headerSize_le_kernSize (b := b)
  constructor
  · intro h i hpass
    have hread : (⟨i, b.kernAddr i + headerSize, (ihSize (b.image flash i)).toNat⟩ : Read) ∈
        checkReads b flash := by
      unfold checkReads dataReads
      cases i
      all_goals simp [hpass]
    have hend := (h _ hread).2
    dsimp only at hend
    unfold imageLen
    omega
  · intro hsizes r hr
    have hdata (i : Image) (hr : r ∈ dataReads b i (b.image flash i)) : Inside b r := by
      obtain ⟨hpass, rfl⟩ := mem_dataReads hr
      have hsize := hsizes i hpass
      unfold imageLen at hsize
      constructor
      · exact Nat.le_add_right _ _
      · dsimp only
        omega
    unfold checkReads at hr
    rw [List.mem_append, List.mem_append, List.mem_cons, List.mem_singleton] at hr
    rcases hr with ((rfl | rfl) | hr) | hr
    · exact ⟨le_refl _, Nat.add_le_add_left hroom _⟩
    · exact ⟨le_refl _, Nat.add_le_add_left hroom _⟩
    · exact hdata .one hr
    · exact hdata .two hr

/-- A recovery that copies nothing. -/
theorem recovers_idle (hsizes : ∀ i, HeaderPasses (b.image flash i) →
    imageLen (b.image flash i) ≤ b.kernSize) (env : Env.State) :
    Recovers k b es flash ⟨flash, env, checkReads b flash, none⟩ where
  reads := checkReads_inside.mpr hsizes
  idle := fun _ => rfl
  copies := fun _ hw => absurd hw (by simp)
  success := fun _ hw => absurd hw (by simp)
  keeps := fun _ h => h
  frame := fun _ hw => absurd hw (by simp)

/-- What is left of the other image after a copy passes again. -/
theorem overlay_passes {dir : Image} (hpass : Passes (b.image flash dir))
    (hworn : Passes (b.image flash dir.other) → dir = .two ∧ Worn es) (hs : Sound b es flash)
    (hother : Passes (b.image flash dir.other)) :
    Passes (overlay b flash dir (stored b.chip flash.heap (imageLen (b.image flash dir)))) := by
  rcases stored_cases b.chip flash.heap (imageLen (b.image flash dir)) with hn | hn | htorn
  · rw [hn, overlay, Mem.copy_zero]
    exact hother
  · rw [hn]
    exact passes_congr (fun j hj => (Mem.copy_start _ _ hj).symm) hpass
  · obtain ⟨rfl, hw⟩ := hworn hother
    rw [stored_of_torn htorn]
    refine hs.intact hw ?_ htorn
    intro i
    cases i
    · exact hother
    · exact hpass

/-- A copy of an image that passed over one that may be replaced. -/
theorem recovers_copy {dir : Image} {env : Env.State} {buf : Mem} {t' : Boot}
    (hs : Sound b es flash) (hu : flash.nor.Unprotected) (hpass : Passes (b.image flash dir))
    (hwhy : ¬Passes (b.image flash dir.other) ∨ dir = .two ∧ Worn es)
    (run : CopyRun k b dir (imageLen (b.image flash dir)) buf
      ⟨flash, env, checkReads b flash, none⟩ t') :
    Recovers k b es flash t' := by
  have hle := hs.sizes dir hpass.toHeaderPasses
  have hpos : 0 < imageLen (b.image flash dir) :=
    lt_of_lt_of_le (by decide) (headerSize_le_imageLen _)
  have hsource : Passes (b.image t'.flash dir) :=
    passes_congr (fun j hj => (run.image_source hpos hle hu (lt_of_lt_of_le hj hle)).symm) hpass
  have hcopied (w : Copy) (hw : t'.copied = some w) : w = ⟨dir, buf, imageLen (b.image flash dir),
      (raspiEraseWrite k b.chip flash buf (b.kernAddr dir.other)
        (imageLen (b.image flash dir))).1⟩ :=
    Option.some.inj (hw.symm.trans run.copied)
  constructor
  case reads =>
    intro r hr
    rw [run.reads, List.mem_append, List.mem_singleton] at hr
    rcases hr with hr | rfl
    · exact checkReads_inside.mpr hs.sizes r hr
    · exact ⟨le_refl _, Nat.add_le_add_left hle _⟩
  case idle =>
    intro hnone
    rw [run.copied] at hnone
    exact absurd hnone (by simp)
  case copies =>
    intro w hw
    obtain rfl := hcopied w hw
    refine ⟨hpass, ?_, rfl, run.source, rfl, run.mem⟩
    exact hwhy.imp_right fun h => ⟨by rw [h.1]; rfl, h.2⟩
  case success =>
    intro w hw hret
    have hall := (run.ret_iff hpos hle hu hw).mp hret
    refine Image.forall_of (fun i => Passes (b.image t'.flash i)) dir hsource ?_
    rw [run.image_other hpos hle hu, hall]
    exact passes_congr (fun j hj => (Mem.copy_start _ _ hj).symm) hpass
  case keeps =>
    refine Image.forall_of (fun i => Passes (b.image flash i) → Passes (b.image t'.flash i)) dir
      (fun _ => hsource) ?_
    intro hother
    rw [run.image_other hpos hle hu]
    exact overlay_passes hpass (fun h => hwhy.resolve_left (not_not.mpr h)) hs hother
  case frame =>
    intro w hw x hx hout
    obtain rfl := hcopied w hw
    exact run.frame hpos hle hu hx hout

variable (k b consoleAssign) in
theorem restore_run {dir : Image} {hdr : Mem} {t : Boot}
    (hhdr : ∀ j, j < headerSize → hdr j = b.image t.flash dir j)
    (hle : imageLen (b.image t.flash dir) ≤ b.kernSize) (hu : t.flash.nor.Unprotected)
    (h : Env.Holds t.env.env.data es) :
    ∃ buf t', restore k b consoleAssign dir hdr t = some (0, t') ∧
      CopyRun k b dir (imageLen (b.image t.flash dir)) buf t t' := by
  have hlen : u32 ((ihSize hdr).toNat + headerSize) = imageLen (b.image t.flash dir) := by
    have hend := b.kernEnd_le dir
    rw [ihSize_congr hhdr]
    exact u32_of_lt (lt_of_le_of_lt (by unfold imageLen at hle; omega) b.chip.size_lt_u32)
  obtain ⟨ret, buf, t', hcopy, run⟩ := copyImage_run k b consoleAssign dir hle hu h
  refine ⟨buf, t', ?_, run⟩
  unfold restore
  dsimp only
  rw [hlen, if_neg (Nat.not_lt.mpr hle), hcopy]
  rfl

theorem copyImage_reads {dir : Image} {len : ℕ} {t t' : Boot} {ret : ℤ}
    (h : copyImage k b consoleAssign dir len t = some (ret, t')) : t.reads ⊆ t'.reads := by
  unfold copyImage Boot.read at h
  dsimp only at h
  cases dir with
  | one =>
    obtain ⟨_, rfl⟩ := Prod.mk.inj (Option.some.inj h)
    exact List.subset_append_left _ _
  | two =>
    dsimp only at h
    split at h
    · rw [Option.bind_eq_bind, Option.bind_eq_some_iff] at h
      obtain ⟨env1, _, h⟩ := h
      rw [Option.bind_eq_some_iff] at h
      obtain ⟨env2, _, h⟩ := h
      obtain ⟨_, rfl⟩ := Prod.mk.inj (Option.some.inj h)
      exact List.subset_append_left _ _
    · obtain ⟨_, rfl⟩ := Prod.mk.inj (Option.some.inj h)
      exact List.subset_append_left _ _

theorem restore_reads {dir : Image} {hdr : Mem} {t t' : Boot} {ret : ℤ}
    (h : restore k b consoleAssign dir hdr t = some (ret, t')) : t.reads ⊆ t'.reads := by
  unfold restore at h
  dsimp only at h
  split at h
  · obtain ⟨_, rfl⟩ := Prod.mk.inj (Option.some.inj h)
    exact fun _ hr => hr
  · rw [Option.bind_eq_bind, Option.bind_eq_some_iff] at h
    obtain ⟨⟨ret', t1⟩, hcopy, h⟩ := h
    obtain ⟨_, rfl⟩ := Prod.mk.inj (Option.some.inj h)
    exact copyImage_reads hcopy

theorem repair_reads {broken1 broken2 : Bool} {hdr1 hdr2 : Mem} {t t' : Boot} {ret : ℤ}
    (h : repair k b consoleAssign broken1 broken2 hdr1 hdr2 t = some (ret, t')) :
    t.reads ⊆ t'.reads := by
  unfold repair at h
  split_ifs at h
  · exact restore_reads h
  · exact restore_reads h
  · obtain ⟨_, rfl⟩ := Prod.mk.inj (Option.some.inj h)
    exact fun _ hr => hr
  · obtain ⟨_, rfl⟩ := Prod.mk.inj (Option.some.inj h)
    exact fun _ hr => hr

theorem restore_recovers {dir : Image} {hdr : Mem} {env : Env.State}
    (hhdr : ∀ j, j < headerSize → hdr j = b.image flash dir j) (hs : Sound b es flash)
    (hu : flash.nor.Unprotected) (h : Env.Holds env.env.data es)
    (hpass : Passes (b.image flash dir))
    (hwhy : ¬Passes (b.image flash dir.other) ∨ dir = .two ∧ Worn es) :
    ∃ ret t, restore k b consoleAssign dir hdr ⟨flash, env, checkReads b flash, none⟩ =
      some (ret, t) ∧ Recovers k b es flash t := by
  obtain ⟨buf, t', hrestore, run⟩ := restore_run k b consoleAssign
    (t := ⟨flash, env, checkReads b flash, none⟩) hhdr (hs.sizes dir hpass.toHeaderPasses) hu h
  exact ⟨0, t', hrestore, recovers_copy hs hu hpass hwhy run⟩

theorem repair_two (hdr1 hdr2 : Mem) (t : Boot) :
    repair k b consoleAssign true false hdr1 hdr2 t = restore k b consoleAssign .two hdr2 t := by
  unfold repair
  rw [if_pos (by decide)]

theorem repair_one (hdr1 hdr2 : Mem) (t : Boot) :
    repair k b consoleAssign false true hdr1 hdr2 t = restore k b consoleAssign .one hdr1 t := by
  unfold repair
  rw [if_neg (by decide), if_pos (by decide)]

/-- Two images with one verdict are left as they are. -/
theorem repair_same (broken : Bool) (hdr1 hdr2 : Mem) (t : Boot) :
    repair k b consoleAssign broken broken hdr1 hdr2 t =
      some (if broken then 0 else -1, t) := by
  unfold repair
  cases broken
  · rw [if_neg (by decide), if_neg (by decide), if_neg (by decide), if_neg (by decide)]
  · rw [if_neg (by decide), if_neg (by decide), if_pos (by decide), if_pos (by decide)]

/-- The last decision, after the verdicts on images that fit. -/
theorem repair_recovers {hdr1 hdr2 : Mem} {env : Env.State} {worn : Bool}
    (hhdr1 : ∀ j, j < headerSize → hdr1 j = b.image flash .one j)
    (hhdr2 : ∀ j, j < headerSize → hdr2 j = b.image flash .two j)
    (hworn : worn = true ↔ Worn es) (hs : Sound b es flash) (hu : flash.nor.Unprotected)
    (h : Env.Holds env.env.data es) :
    ∃ ret t, repair k b consoleAssign
        (!decide (Passes (b.image flash .one)) || (worn && decide (Passes (b.image flash .one))))
        (!decide (Passes (b.image flash .two))) hdr1 hdr2
        ⟨flash, env, checkReads b flash, none⟩ = some (ret, t) ∧ Recovers k b es flash t := by
  by_cases h1 : Passes (b.image flash .one)
  · by_cases h2 : Passes (b.image flash .two)
    · rw [decide_eq_true h1, decide_eq_true h2, Bool.not_true, Bool.false_or, Bool.and_true]
      cases worn with
      | true =>
        rw [repair_two]
        exact restore_recovers hhdr2 hs hu h h2 (Or.inr ⟨rfl, hworn.mp rfl⟩)
      | false =>
        rw [repair_same]
        exact ⟨_, _, rfl, recovers_idle hs.sizes env⟩
    · rw [decide_eq_true h1, decide_eq_false h2, Bool.not_true, Bool.not_false, Bool.false_or,
        Bool.and_true]
      cases worn with
      | true =>
        rw [repair_same]
        exact ⟨_, _, rfl, recovers_idle hs.sizes env⟩
      | false =>
        rw [repair_one]
        exact restore_recovers hhdr1 hs hu h h1 (Or.inl h2)
  · rw [decide_eq_false h1, Bool.not_false, Bool.true_or]
    by_cases h2 : Passes (b.image flash .two)
    · rw [decide_eq_true h2, Bool.not_true, repair_two]
      exact restore_recovers hhdr2 hs hu h h2 (Or.inl h1)
    · rw [decide_eq_false h2, Bool.not_false, repair_same]
      exact ⟨_, _, rfl, recovers_idle hs.sizes env⟩

/-- A worn Image1 that passes is replaced, and what a torn copy leaves of it has to pass
for the recovery to keep it. -/
theorem intact_of_recovers {hdr1 hdr2 : Mem} {env : Env.State} {ret : ℤ} {t : Boot}
    (hhdr2 : ∀ j, j < headerSize → hdr2 j = b.image flash .two j)
    (hsizes : ∀ i, HeaderPasses (b.image flash i) → imageLen (b.image flash i) ≤ b.kernSize)
    (hu : flash.nor.Unprotected) (h : Env.Holds env.env.data es)
    (hpass : ∀ i, Passes (b.image flash i))
    (hrun : repair k b consoleAssign true false hdr1 hdr2
      ⟨flash, env, checkReads b flash, none⟩ = some (ret, t))
    (hr : Recovers k b es flash t)
    (htorn : Torn b.chip flash.heap (imageLen (b.image flash .two))) :
    Passes (overlay b flash .two (imageLen (b.image flash .two) -
      inBlock b.chip (imageLen (b.image flash .two)))) := by
  have hle := hsizes .two (hpass .two).toHeaderPasses
  have hpos : 0 < imageLen (b.image flash .two) :=
    lt_of_lt_of_le (by decide) (headerSize_le_imageLen _)
  obtain ⟨buf, t', hrestore, run⟩ := restore_run k b consoleAssign
    (t := ⟨flash, env, checkReads b flash, none⟩) hhdr2 hle hu h
  rw [repair_two, hrestore] at hrun
  obtain ⟨_, rfl⟩ := Prod.mk.inj (Option.some.inj hrun)
  have hkeep := hr.keeps .one (hpass .one)
  rw [← stored_of_torn htorn]
  have himage := run.image_other hpos hle hu
  exact himage ▸ hkeep

/-- The recovery of check_image_validation does what it is for exactly on a sound flash
and environment. -/
theorem checkImageValidation_iff (k : Controller) (b : Board)
    (consoleAssign : ℕ → Env.CStr → ℤ) (es : List Env.Entry) (flash : Flash) (env : Env.State)
    (h : Env.Holds env.env.data es) (hu : flash.nor.Unprotected) :
    (∃ ret t, checkImageValidation k b consoleAssign flash env = some (ret, t) ∧
        Recovers k b es flash t) ↔ Sound b es flash := by
  obtain ⟨hdr1, hdr2, broken1, broken2, hhdr1, hhdr2, hverdict, heq⟩ :=
    checkImageValidation_checks k b consoleAssign flash env
  rw [heq]
  constructor
  · rintro ⟨ret, t, hrun, hr⟩
    rw [Option.bind_eq_some_iff] at hrun
    obtain ⟨tooOften, htry, hrun⟩ := hrun
    have hsizes := checkReads_inside.mp fun r hread => hr.reads r (repair_reads hrun hread)
    have hdefined := defined_of_triedTooOften h htry
    refine ⟨hsizes, hdefined, fun hworn hpass htorn => ?_⟩
    obtain ⟨worn, hiff, htried⟩ := triedTooOften_of_defined h hdefined
    obtain ⟨hb1, hb2⟩ := hverdict hsizes
    rw [decide_eq_true (hpass .one), Bool.not_true] at hb1
    rw [decide_eq_true (hpass .two), Bool.not_true] at hb2
    subst hb1 hb2
    rw [htried, hiff.mpr hworn] at htry
    obtain rfl : true = tooOften := Option.some.inj htry
    exact intact_of_recovers hhdr2 hsizes hu h hpass hrun hr htorn
  · intro hs
    obtain ⟨worn, hiff, htried⟩ := triedTooOften_of_defined h hs.defined
    obtain ⟨hb1, hb2⟩ := hverdict hs.sizes
    rw [htried, Option.bind_some, hb1, hb2, Bool.not_not]
    exact repair_recovers hhdr1 hhdr2 hiff hs hu h

end

/-- 8 MiB in two halves. -/
def board8M : Board :=
  ⟨chipsData[6], 0x400000, List.getElem_mem _, by decide, by decide⟩

/-- The header of an image without data. -/
def emptyImage : Mem := fun i =>
  [0x27, 0x05, 0x19, 0x56, 0x33, 0xa9, 0x13, 0x15].getD i 0

/-- Image1 erased, Image2 without data. -/
def emptyFlash : Flash :=
  ⟨⟨Mem.copy (fun _ => 0xff) (board8M.kernAddr .two) 64 emptyImage, false, 0⟩, []⟩

example : Passes (board8M.image emptyFlash .two) := by decide +kernel

theorem one_no_nul : 0 ∉ Env.ascii "1" := by decide

def stableEntry : Env.Entry :=
  ⟨image1Stable.bytes, Env.ascii "1", image1Stable.no_nul, by decide, one_no_nul⟩

theorem erased_image_restored :
    let env : Env.State := ⟨⟨0, Env.Data.ofEntries [stableEntry] (by decide)⟩, 57600, [], [], 0, []⟩
    ∃ ret t, checkImageValidation rt6855A board8M (fun _ _ => 0) emptyFlash env = some (ret, t) ∧
      Recovers rt6855A board8M [stableEntry] emptyFlash t := by
  refine (checkImageValidation_iff rt6855A board8M (fun _ _ => 0) [stableEntry] emptyFlash _
    (Env.Data.holds_ofEntries [stableEntry] (by decide) (by decide)) rfl).mpr ⟨?_, ?_, ?_⟩
  · intro i hpass
    cases i with
    | one => exact absurd hpass.magic (by decide +kernel)
    | two => decide +kernel
  · exact ⟨Env.ascii "1", by decide, Or.inl rfl⟩
  · rintro ⟨stable, _, hstable, hne, _⟩
    exact absurd (Option.some.inj hstable).symm hne

/-- An environment without Image1Stable. -/
theorem missing_variable :
    let env : Env.State := ⟨⟨0, Env.Data.ofEntries [] (by decide)⟩, 57600, [], [], 0, []⟩
    ¬∃ ret t, checkImageValidation rt6855A board8M (fun _ _ => 0) emptyFlash env = some (ret, t) ∧
      Recovers rt6855A board8M [] emptyFlash t := by
  intro env hrun
  have hs := (checkImageValidation_iff rt6855A board8M (fun _ _ => 0) [] emptyFlash env
    (Env.Data.holds_ofEntries [] (by decide) (by decide)) rfl).mp hrun
  obtain ⟨stable, hstable, _⟩ := hs.defined
  cases hstable

end Iot7688.DualImage
