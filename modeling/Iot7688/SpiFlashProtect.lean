import Iot7688.SpiFlash

/-!
The write enable latch and the block protection along raspi_erase and raspi_write. The
functions below list the chip as it is when each sector erase and each page program is
issued. Clearing the protection is a command of its own that takes the latch, and only
the erase of a chip with 4-byte addresses sets it again.
-/
namespace Iot7688.SpiFlash

open Lib NorChip

/-- The chip when raspi_erase_sector issues its erase. -/
def eraseSectorIssued (c : ChipInfo) (d : Nor) : Nor :=
  let d := raspiUnprotect d.writeEnable
  if c.addr4b then d.writeEnable else d

theorem raspiEraseSector_issued (c : ChipInfo) (d : Nor) (offset : ℕ) :
    raspiEraseSector c d offset =
      (0, ((eraseSectorIssued c d).sectorErase c.sectorSize (busAddr c offset)).writeDisable) := by
  rw [raspiEraseSector, raspiWaitReady_eq, if_neg (not_not.mpr rfl)]
  rfl

def eraseIssued (c : ChipInfo) (d : Nor) (offs len : ℕ) : List Nor :=
  if len = 0 then []
  else
    eraseSectorIssued c d ::
      eraseIssued c (raspiEraseSector c d offs).2 (u32 (offs + c.sectorSize)) (len - c.sectorSize)
termination_by len
decreasing_by
  have := c.sectorSize_pos
  omega

/-- The chip at each program command for one page chunk. -/
def piecesIssued (k : Controller) (c : ChipInfo) (d : Nor) (wrto wrlen : ℕ) (wrbuf : Mem) :
    List Nor :=
  if wrlen ≤ k.wrMore then [d]
  else
    d :: piecesIssued k c (d.pageProgram (busAddr c wrto) k.wrMore wrbuf).writeDisable.writeEnable
      (u32 (wrto + k.wrMore)) (wrlen - k.wrMore) (wrbuf.shift k.wrMore)
termination_by wrlen
decreasing_by
  have := k.wrMore_pos
  omega

def loopIssued (k : Controller) (c : ChipInfo) (d : Nor) (buf : Mem) (dst len pageOffset : ℕ)
    (_hpage : pageOffset < pageSize) (retlen : ℕ) : List Nor :=
  if len = 0 then []
  else
    let size := min len (pageSize - pageOffset)
    let d := raspiUnprotect d.writeEnable
    let r := programPieces k c d dst size buf retlen
    piecesIssued k c d dst size buf ++
      loopIssued k c r.1 (buf.shift size) (u32 (dst + size)) (len - size) 0 (by decide) r.2
termination_by len
decreasing_by omega

theorem pageStart_lt (dst : ℕ) : dst % pageSize < pageSize := Nat.mod_lt _ (Nat.succ_pos 255)

def writeIssued (k : Controller) (c : ChipInfo) (d : Nor) (buf : Mem) (dst len : ℕ) : List Nor :=
  if u32 (dst + len) > c.size then []
  else loopIssued k c d buf dst len (dst % pageSize) (pageStart_lt dst) 0

/-- Every erase of the call takes effect, and success means an erased range. -/
def EraseKept (c : ChipInfo) (d : Nor) (offs len : ℕ) : Prop :=
  (∀ e ∈ eraseIssued c d offs len, e.writable = true) ∧
    ((raspiErase c d offs len).1 = 0 →
      ∀ x, offs ≤ x → x < offs + len → (raspiErase c d offs len).2.mem x = 0xff)

/-- Every program of the call takes effect, and success means a programmed range. -/
def WriteKept (k : Controller) (c : ChipInfo) (d : Nor) (buf : Mem) (dst len : ℕ) : Prop :=
  (∀ e ∈ writeIssued k c d buf dst len, e.writable = true) ∧
    ((raspiWrite k c d buf dst len).1 = len →
      ∀ i, i < len → (raspiWrite k c d buf dst len).2.mem (dst + i) = d.mem (dst + i) &&& buf i)

/-- The sectors that an erase of len bytes reaches, from the sector of its start on. -/
def eraseCount (c : ChipInfo) (len : ℕ) : ℕ := (len + c.sectorSize - 1) / c.sectorSize

theorem eraseCount_zero (c : ChipInfo) : eraseCount c 0 = 0 := by
  have := c.sectorSize_pos
  exact Nat.div_eq_of_lt (by omega)

theorem eraseCount_of_ne_zero (c : ChipInfo) {len : ℕ} (h : len ≠ 0) :
    eraseCount c len = eraseCount c (len - c.sectorSize) + 1 := by
  have hpos := c.sectorSize_pos
  by_cases hle : c.sectorSize ≤ len
  · rw [eraseCount, eraseCount, ← Nat.add_div_right _ hpos]
    congr 1
    omega
  · have hsmall : len - c.sectorSize = 0 := by omega
    rw [hsmall, eraseCount_zero, eraseCount]
    exact Nat.div_eq_of_lt_le (by omega) (by omega)

theorem writable_iff (d : Nor) : d.writable = true ↔ d.wel = true ∧ d.Unprotected := by
  rw [Nor.writable, Bool.and_eq_true, beq_iff_eq]
  rfl

/-- Clearing the protection takes the latch. -/
theorem raspiUnprotect_of_protected {d : Nor} (h : ¬d.Unprotected) :
    raspiUnprotect d.writeEnable = { d with bp := 0, wel := false } := by
  have hbp : d.writeEnable.readStatus &&& srBp = d.bp &&& srBp := by
    have hwel : srWel &&& srBp = 0 := by decide
    change (srWel ||| (d.bp &&& srBp)) &&& srBp = _
    rw [or_and_byte, hwel, UInt8.and_assoc, UInt8.and_self, UInt8.zero_or]
  have hne : d.bp &&& srBp ≠ 0 := h
  rw [raspiUnprotect, hbp, if_pos hne]
  rfl

/-- Only the branch for 4-byte addresses sets the latch again. -/
theorem eraseSectorIssued_writable_iff (c : ChipInfo) (d : Nor) :
    (eraseSectorIssued c d).writable = true ↔ d.Unprotected ∨ c.addr4b = true := by
  rw [writable_iff, eraseSectorIssued]
  by_cases hu : d.Unprotected
  · rw [raspiUnprotect_of_unprotected _ ((Nor.unprotected_writeEnable d).mpr hu)]
    refine iff_of_true ?_ (Or.inl hu)
    split
    · exact ⟨rfl, hu⟩
    · exact ⟨rfl, hu⟩
  · rw [raspiUnprotect_of_protected hu]
    cases c.addr4b with
    | true => exact iff_of_true ⟨rfl, show (0 : Byte) &&& srBp = 0 by decide⟩ (Or.inr rfl)
    | false => simp [hu]

/-- An erase that takes effect, in whatever state the call found the chip. -/
theorem raspiEraseSector_effect (c : ChipInfo) {d : Nor} (hok : d.Unprotected ∨ c.addr4b = true)
    {offs : ℕ} (hoffs : offs < c.size) :
    (raspiEraseSector c d offs).2.Unprotected ∧
      (raspiEraseSector c d offs).2.mem =
        d.mem.fill (offs / c.sectorSize * c.sectorSize) c.sectorSize 0xff := by
  obtain ⟨hwel, hun⟩ := (writable_iff _).mp ((eraseSectorIssued_writable_iff c d).mpr hok)
  have hmem : (eraseSectorIssued c d).mem = d.mem := by
    unfold eraseSectorIssued raspiUnprotect Nor.writeStatus
    dsimp only
    split_ifs <;> rfl
  rw [raspiEraseSector_issued]
  refine ⟨Nor.unprotected_sectorErase _ _ _ hun, ?_⟩
  rw [Nor.writeDisable_mem, Nor.sectorErase_mem _ _ _ hun hwel, hmem, busAddr_of_lt c hoffs]

theorem fill_sector (m : Mem) (a : ℕ) {n : ℕ} (hn : 0 < n) (b : Byte) (x : ℕ) :
    m.fill (a / n * n) n b x = if x / n = a / n then b else m x := by
  have hdiv : a / n * n ≤ x ∧ x < a / n * n + n ↔ x / n = a / n := by
    rw [Nat.div_eq_iff hn]
    omega
  rw [Mem.fill]
  by_cases h : x / n = a / n
  · rw [if_pos (hdiv.mpr h), if_pos h]
  · rw [if_neg (mt hdiv.mp h), if_neg h]

/-- The erase of a range sets the sectors it reaches. -/
theorem raspiErase_effect (c : ChipInfo) {d : Nor} (hok : d.Unprotected ∨ c.addr4b = true)
    {offs len : ℕ} (hfit : offs + len ≤ c.size) :
    (∀ e ∈ eraseIssued c d offs len, e.writable = true) ∧ (raspiErase c d offs len).1 = 0 ∧
      ∀ x, (raspiErase c d offs len).2.mem x =
        if offs / c.sectorSize ≤ x / c.sectorSize ∧
          x / c.sectorSize < offs / c.sectorSize + eraseCount c len then 0xff else d.mem x := by
  have hpos := c.sectorSize_pos
  induction len using Nat.strong_induction_on generalizing d offs with
  | h len ih =>
    rw [eraseIssued, raspiErase]
    by_cases hlen : len = 0
    · subst hlen
      rw [if_pos rfl, if_pos rfl, eraseCount_zero]
      refine ⟨fun e he => absurd he List.not_mem_nil, rfl, fun x => ?_⟩
      rw [if_neg (by omega)]
    · rw [if_neg hlen, if_neg hlen, eraseCount_of_ne_zero c hlen]
      have hret : (raspiEraseSector c d offs).1 = 0 := by rw [raspiEraseSector_issued]
      obtain ⟨hun, hmem⟩ := raspiEraseSector_effect c hok (show offs < c.size by omega)
      have hfirst := (eraseSectorIssued_writable_iff c d).mpr hok
      dsimp only
      rw [if_neg (not_not.mpr hret), List.forall_mem_cons]
      by_cases hlast : len ≤ c.sectorSize
      · have hzero : len - c.sectorSize = 0 := by omega
        rw [hzero, eraseIssued, raspiErase, if_pos rfl, if_pos rfl, eraseCount_zero, hmem]
        refine ⟨⟨hfirst, fun e he => absurd he List.not_mem_nil⟩, rfl, fun x => ?_⟩
        rw [fill_sector _ _ hpos]
        congr 1
        apply propext
        omega
      · have hsize := c.size_lt_u32
        rw [u32_of_lt (by omega)]
        obtain ⟨hrest, hr, hm⟩ := ih (len - c.sectorSize) (by omega) (Or.inl hun)
          (show offs + c.sectorSize + (len - c.sectorSize) ≤ c.size by omega)
        refine ⟨⟨hfirst, hrest⟩, hr, fun x => ?_⟩
        rw [hm, hmem, fill_sector _ _ hpos, Nat.add_div_right _ hpos]
        split_ifs <;> first | rfl | omega

theorem programPieces_unprotected (k : Controller) (c : ChipInfo) (d : Nor) (hu : d.Unprotected)
    (wrto wrlen : ℕ) (wrbuf : Mem) (retlen : ℕ) :
    (programPieces k c d wrto wrlen wrbuf retlen).1.Unprotected := by
  have hmore := k.wrMore_pos
  induction wrlen using Nat.strong_induction_on generalizing d wrto wrbuf retlen with
  | h wrlen ih =>
    rw [programPieces]
    split
    · exact Nor.unprotected_pageProgram _ _ _ _ hu
    · exact ih (wrlen - k.wrMore) (by omega)
        (d.pageProgram (busAddr c wrto) k.wrMore wrbuf).writeDisable.writeEnable
        (Nor.unprotected_pageProgram _ _ _ _ hu) _ _ _

theorem mem_piecesIssued (k : Controller) (c : ChipInfo) (d : Nor) (wrto wrlen : ℕ) (wrbuf : Mem) :
    d ∈ piecesIssued k c d wrto wrlen wrbuf := by
  rw [piecesIssued]
  split
  · exact List.mem_singleton_self d
  · exact List.mem_cons_self

theorem piecesIssued_writable (k : Controller) (c : ChipInfo) (d : Nor) (hu : d.Unprotected)
    (hw : d.wel = true) (wrto wrlen : ℕ) (wrbuf : Mem) :
    ∀ e ∈ piecesIssued k c d wrto wrlen wrbuf, e.writable = true := by
  have hmore := k.wrMore_pos
  induction wrlen using Nat.strong_induction_on generalizing d wrto wrbuf with
  | h wrlen ih =>
    have hfirst : d.writable = true := (writable_iff d).mpr ⟨hw, hu⟩
    rw [piecesIssued]
    split
    · rw [List.forall_mem_singleton]
      exact hfirst
    · rw [List.forall_mem_cons]
      exact ⟨hfirst, ih (wrlen - k.wrMore) (by omega)
        (d.pageProgram (busAddr c wrto) k.wrMore wrbuf).writeDisable.writeEnable
        (Nor.unprotected_pageProgram _ _ _ _ hu) rfl _ _⟩

theorem loopIssued_writable (k : Controller) (c : ChipInfo) {d : Nor} (hu : d.Unprotected)
    (buf : Mem) (dst len pageOffset : ℕ) (hpage : pageOffset < pageSize) (retlen : ℕ) :
    ∀ e ∈ loopIssued k c d buf dst len pageOffset hpage retlen, e.writable = true := by
  induction len using Nat.strong_induction_on generalizing d buf dst pageOffset retlen with
  | h len ih =>
    rw [loopIssued]
    split
    · exact fun e he => absurd he List.not_mem_nil
    · have hen : d.writeEnable.Unprotected := (Nor.unprotected_writeEnable d).mpr hu
      dsimp only
      rw [raspiUnprotect_of_unprotected _ hen, List.forall_mem_append]
      exact ⟨piecesIssued_writable k c _ hen rfl _ _ _,
        ih _ (by omega) (programPieces_unprotected k c _ hen _ _ _ _) _ _ _ _ _⟩

/-- The first program command of a protected chip comes without the latch. -/
theorem loopIssued_protected (k : Controller) (c : ChipInfo) {d : Nor} (hp : ¬d.Unprotected)
    (buf : Mem) (dst : ℕ) {len : ℕ} (hlen : len ≠ 0) (pageOffset : ℕ)
    (hpage : pageOffset < pageSize) (retlen : ℕ) :
    ∃ e ∈ loopIssued k c d buf dst len pageOffset hpage retlen, e.writable = false := by
  rw [loopIssued, if_neg hlen]
  refine ⟨raspiUnprotect d.writeEnable, List.mem_append_left _ (mem_piecesIssued _ _ _ _ _ _), ?_⟩
  rw [raspiUnprotect_of_protected hp]
  rfl

theorem eraseKept_iff (c : ChipInfo) (d : Nor) (offs len : ℕ) (hfit : offs + len ≤ c.size) :
    EraseKept c d offs len ↔ len = 0 ∨ (d.Unprotected ∨ c.addr4b = true) ∧
      ∀ x, offs ≤ x → x < offs + len →
        offs / c.sectorSize + eraseCount c len ≤ x / c.sectorSize → d.mem x = 0xff := by
  by_cases hlen : len = 0
  · subst hlen
    refine iff_of_true ⟨?_, fun _ x hx hx' => absurd hx (by omega)⟩ (Or.inl rfl)
    rw [eraseIssued, if_pos rfl]
    exact fun e he => absurd he List.not_mem_nil
  rw [or_iff_right hlen]
  by_cases hok : d.Unprotected ∨ c.addr4b = true
  · obtain ⟨hissued, hret, hmem⟩ := raspiErase_effect c hok hfit
    rw [and_iff_right hok]
    constructor
    · rintro ⟨_, herased⟩ x hx hx' hbehind
      have h := herased hret x hx hx'
      rwa [hmem, if_neg (by omega)] at h
    · refine fun htail => ⟨hissued, fun _ x hx hx' => ?_⟩
      have hstart : offs / c.sectorSize ≤ x / c.sectorSize := Nat.div_le_div_right hx
      rw [hmem]
      split
      · rfl
      · exact htail x hx hx' (by omega)
  · refine iff_of_false (fun h => hok ?_) fun h => hok h.1
    rw [← eraseSectorIssued_writable_iff]
    refine h.1 _ ?_
    rw [eraseIssued, if_neg hlen]
    exact List.mem_cons_self

theorem writeKept_iff (k : Controller) (c : ChipInfo) (d : Nor) (buf : Mem) (dst len : ℕ)
    (hfit : dst + len ≤ c.size) :
    WriteKept k c d buf dst len ↔ len = 0 ∨ d.Unprotected := by
  have hsize := c.size_lt_u32
  have hrange : ¬u32 (dst + len) > c.size := by
    rw [u32_of_lt (by omega)]
    omega
  rw [WriteKept, writeIssued, if_neg hrange]
  by_cases hlen : len = 0
  · subst hlen
    refine iff_of_true ⟨?_, fun _ i hi => absurd hi (by omega)⟩ (Or.inl rfl)
    rw [loopIssued, if_pos rfl]
    exact fun e he => absurd he List.not_mem_nil
  rw [or_iff_right hlen]
  constructor
  · rintro ⟨hissued, _⟩
    by_contra hp
    obtain ⟨e, he, hfalse⟩ := loopIssued_protected k c hp buf dst hlen (dst % pageSize)
      (Nat.mod_lt _ (Nat.succ_pos 255)) 0
    rw [hissued e he] at hfalse
    cases hfalse
  · intro hu
    obtain ⟨_, _, hmem⟩ := raspiWrite_spec k c d buf dst len hu hfit
    refine ⟨loopIssued_writable k c hu _ _ _ _ _ _, fun _ i hi => ?_⟩
    rw [hmem, Mem.program, if_pos (by omega), Nat.add_sub_cancel_left]

/-- When the commands of an erase and of a write all take effect. -/
theorem write_enable_protocol_iff (k : Controller) (c : ChipInfo) (d : Nor) (buf : Mem)
    (offs len : ℕ) (hfit : offs + len ≤ c.size) :
    (EraseKept c d offs len ↔ len = 0 ∨ (d.Unprotected ∨ c.addr4b = true) ∧
        ∀ x, offs ≤ x → x < offs + len →
          offs / c.sectorSize + eraseCount c len ≤ x / c.sectorSize → d.mem x = 0xff) ∧
      (WriteKept k c d buf offs len ↔ len = 0 ∨ d.Unprotected) :=
  ⟨eraseKept_iff c d offs len hfit, writeKept_iff k c d buf offs len hfit⟩

/-- All blocks protected, all cells programmed. -/
def protectedNor : Nor := ⟨fun _ => 0, false, 0x1c⟩

/-- The last byte of a chip with 4-byte addresses, protected. -/
theorem write_enable_protocol_last_byte :
    EraseKept chipsData[8] protectedNor 0x1ffffff 1 ∧
      ¬WriteKept rt6855A chipsData[8] protectedNor (fun _ => 0) 0x1ffffff 1 := by
  have h := write_enable_protocol_iff rt6855A chipsData[8] protectedNor (fun _ => 0) 0x1ffffff 1
    (by decide)
  have hp : ¬protectedNor.Unprotected := show ¬(0x1c : Byte) &&& srBp = 0 by decide
  refine ⟨h.1.mpr (Or.inr ⟨Or.inr rfl, fun x hx hx' hbehind => ?_⟩), fun hw => ?_⟩
  · obtain rfl : x = 0x1ffffff := by omega
    exact absurd hbehind (by decide)
  · exact (h.2.mp hw).elim (by decide) hp

/-- The first sector of a chip with 3-byte addresses: the erase is ignored and reported
as done. -/
theorem protected_erase_ignored :
    ¬EraseKept chipsData[6] protectedNor 0 0x10000 ∧
      (raspiErase chipsData[6] protectedNor 0 0x10000).1 = 0 ∧
      (raspiErase chipsData[6] protectedNor 0 0x10000).2.mem = fun _ => 0 := by
  have hp : ¬protectedNor.Unprotected := show ¬(0x1c : Byte) &&& srBp = 0 by decide
  have hbytes : chipsData[6].addr4b = false := rfl
  have hmem : (raspiEraseSector chipsData[6] protectedNor 0).2.mem = fun _ => 0 := by
    rw [raspiEraseSector_issued, eraseSectorIssued, raspiUnprotect_of_protected hp]
    rfl
  have hrun : raspiErase chipsData[6] protectedNor 0 0x10000 =
      ((0 : ℤ), (raspiEraseSector chipsData[6] protectedNor 0).2) := by
    have hlen : 0x10000 - chipsData[6].sectorSize = 0 := by decide
    have hret : (raspiEraseSector chipsData[6] protectedNor 0).1 = 0 := by
      rw [raspiEraseSector_issued]
    rw [raspiErase.eq_def, if_neg (by decide)]
    dsimp only
    rw [if_neg (not_not.mpr hret), hlen, raspiErase.eq_def, if_pos rfl]
  refine ⟨fun h => ?_, by rw [hrun], by rw [hrun, hmem]⟩
  rcases (eraseKept_iff _ _ _ _ (by decide)).mp h with hlen | ⟨hok, _⟩
  · exact absurd hlen (by decide)
  · exact hok.elim hp (by simp [hbytes])

end Iot7688.SpiFlash
