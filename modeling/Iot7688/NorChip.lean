import Iot7688.Lib.Memory

/-!
The SPI NOR chip behind the flash drivers: a byte array, the write enable
latch and the block protect bits of the status register. Sector erase sets
the addressed sector to 0xff; page program clears bits inside one page and
wraps at its end. Both are ignored without the latch or under protection,
and consume the latch when they run. The chip is always ready.
-/
namespace Iot7688.NorChip

open Lib

/-- FLASH_PAGESIZE, the program buffer of every supported chip. -/
abbrev pageSize : ℕ := 256

def srWip : Byte := 0x01
def srWel : Byte := 0x02
def srBp : Byte := 0x04 ||| 0x08 ||| 0x10

structure Nor where
  mem : Mem
  wel : Bool
  bp : Byte

namespace Nor

/-- The status register. An always ready chip never shows SR_WIP. -/
def readStatus (d : Nor) : Byte := (if d.wel then srWel else 0) ||| (d.bp &&& srBp)

def writable (d : Nor) : Bool := d.wel && d.bp &&& srBp == 0

def writeEnable (d : Nor) : Nor := { d with wel := true }

def writeDisable (d : Nor) : Nor := { d with wel := false }

def writeStatus (d : Nor) (v : Byte) : Nor :=
  if d.wel then { d with bp := v &&& srBp, wel := false } else d

def sectorErase (d : Nor) (sectorSize a : ℕ) : Nor :=
  if d.writable then
    { d with mem := d.mem.fill (a / sectorSize * sectorSize) sectorSize 0xff, wel := false }
  else d

def pageProgram (d : Nor) (a n : ℕ) (src : Mem) : Nor :=
  if d.writable then
    { d with
      mem := fun x =>
        if x / pageSize = a / pageSize ∧ (x + (pageSize - a % pageSize)) % pageSize < n then
          d.mem x &&& src ((x + (pageSize - a % pageSize)) % pageSize)
        else d.mem x
      wel := false }
  else d

def Unprotected (d : Nor) : Prop := d.bp &&& srBp = 0

@[simp] theorem writeEnable_mem (d : Nor) : d.writeEnable.mem = d.mem := rfl
@[simp] theorem writeDisable_mem (d : Nor) : d.writeDisable.mem = d.mem := rfl

@[simp] theorem unprotected_writeEnable (d : Nor) :
    d.writeEnable.Unprotected ↔ d.Unprotected := Iff.rfl

theorem sectorErase_mem (d : Nor) (sectorSize a : ℕ) (hu : d.Unprotected) (hw : d.wel = true) :
    (d.sectorErase sectorSize a).mem =
      d.mem.fill (a / sectorSize * sectorSize) sectorSize 0xff := by
  have h : d.writable = true := by
    simp only [writable, hw, Bool.true_and, beq_iff_eq]
    exact hu
  simp only [sectorErase, h, if_true]

theorem unprotected_sectorErase (d : Nor) (sectorSize a : ℕ) (hu : d.Unprotected) :
    (d.sectorErase sectorSize a).Unprotected := by
  unfold sectorErase
  split <;> exact hu

/-- Inside one page, programming is the segment program of the memory. -/
theorem pageProgram_mem (d : Nor) (a n : ℕ) (src : Mem) (hu : d.Unprotected)
    (hw : d.wel = true) (hn : n ≤ pageSize - a % pageSize) :
    (d.pageProgram a n src).mem = d.mem.program a n src := by
  have h : d.writable = true := by
    simp only [writable, hw, Bool.true_and, beq_iff_eq]
    exact hu
  funext x
  simp only [pageProgram, h, if_true, Mem.program]
  unfold pageSize at *
  by_cases hx : a ≤ x ∧ x < a + n
  · have hidx : (x + (256 - a % 256)) % 256 = x - a := by omega
    rw [if_pos (by omega), if_pos hx, hidx]
  · rw [if_neg (by omega), if_neg hx]

theorem unprotected_pageProgram (d : Nor) (a n : ℕ) (src : Mem) (hu : d.Unprotected) :
    (d.pageProgram a n src).Unprotected := by
  unfold pageProgram
  split <;> exact hu

end Nor
end Iot7688.NorChip
