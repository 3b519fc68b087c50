import Iot7688.SpiFlash

/-!
Writes that run over the end of the chip. Addresses count modulo its size, so such a
pass erases and programs low sectors. On a chip without protection and with erased
bytes in the buffer, an erased byte stays erased through every pass, and the first
pass erases one: only a failing allocation leaves the flash unchanged. A write that
starts a sector and fits has two passes at most, and stores what the passes with memory
store.
-/
namespace Iot7688.SpiFlash

open Lib NorChip

theorem chipsData_size {c : ChipInfo} (hc : c ∈ chipsData) :
    0 < c.size ∧ c.size ∣ 2 ^ 32 ∧ (c.addr4b = false → c.size ∣ 2 ^ 24) := by
  have hall : ∀ c ∈ chipsData,
      0 < c.size ∧ c.size ∣ 2 ^ 32 ∧ (c.addr4b = false → c.size ∣ 2 ^ 24) := by decide
  exact hall c hc

theorem busAddr_eq {c : ChipInfo} (hc : c ∈ chipsData) (a : ℕ) : busAddr c a = a % c.size := by
  obtain ⟨_, h32, h24⟩ := chipsData_size hc
  unfold busAddr
  cases hb : c.addr4b with
  | true => exact Nat.mod_mod_of_dvd a h32
  | false => exact Nat.mod_mod_of_dvd a (h24 hb)

theorem u32_mod {c : ChipInfo} (hc : c ∈ chipsData) (a : ℕ) : u32 a % c.size = a % c.size :=
  Nat.mod_mod_of_dvd a (chipsData_size hc).2.1

section

variable {c : ChipInfo} (hc : c ∈ chipsData)
include hc

theorem u32_add_mod {a b : ℕ} (h : a % c.size = b % c.size) (n : ℕ) :
    u32 (a + n) % c.size = u32 (b + n) % c.size := by
  rw [u32_mod hc, u32_mod hc, Nat.add_mod, h, ← Nat.add_mod]

/-- Addresses that differ in ignored bits only erase the same sector. -/
theorem raspiEraseSector_congr {a b : ℕ} (h : a % c.size = b % c.size) (d : Nor) :
    raspiEraseSector c d a = raspiEraseSector c d b := by
  have haddr : busAddr c a = busAddr c b := by rw [busAddr_eq hc, busAddr_eq hc, h]
  unfold raspiEraseSector
  rw [haddr]

theorem raspiErase_congr {a b : ℕ} (h : a % c.size = b % c.size) (d : Nor) (len : ℕ) :
    raspiErase c d a len = raspiErase c d b len := by
  induction len using Nat.strong_induction_on generalizing a b d with
  | h len ih =>
    rw [raspiErase]
    conv_rhs => rw [raspiErase]
    by_cases hlen : len = 0
    · rw [if_pos hlen, if_pos hlen]
    · rw [if_neg hlen, if_neg hlen, raspiEraseSector_congr hc h]
      have := c.sectorSize_pos
      dsimp only
      rw [ih (len - c.sectorSize) (by omega) (u32_add_mod hc h _)]

theorem readPieces_congr {a b : ℕ} (h : a % c.size = b % c.size) (k : Controller) (d : Nor)
    (rdlen len : ℕ) (buf : Mem) :
    readPieces k c d a rdlen len buf = readPieces k c d b rdlen len buf := by
  have hmore := k.rdMore_pos
  have haddr {a b : ℕ} (h : a % c.size = b % c.size) : busAddr c a = busAddr c b := by
    rw [busAddr_eq hc, busAddr_eq hc, h]
  induction hn : len - rdlen using Nat.strong_induction_on generalizing a b rdlen buf with
  | h n ih =>
    subst hn
    rw [readPieces]
    conv_rhs => rw [readPieces]
    rw [haddr h]
    by_cases hle : len - rdlen ≤ k.rdMore
    · rw [if_pos hle, if_pos hle]
    · rw [if_neg hle, if_neg hle]
      exact ih (len - (rdlen + k.rdMore)) (by omega) (u32_add_mod hc h _) _ _ rfl

theorem programPieces_congr {a b : ℕ} (h : a % c.size = b % c.size) (k : Controller) (d : Nor)
    (len : ℕ) (buf : Mem) (retlen : ℕ) :
    programPieces k c d a len buf retlen = programPieces k c d b len buf retlen := by
  have hmore := k.wrMore_pos
  have haddr {a b : ℕ} (h : a % c.size = b % c.size) : busAddr c a = busAddr c b := by
    rw [busAddr_eq hc, busAddr_eq hc, h]
  induction len using Nat.strong_induction_on generalizing a b d buf retlen with
  | h len ih =>
    rw [programPieces]
    conv_rhs => rw [programPieces]
    rw [haddr h]
    by_cases hle : len ≤ k.wrMore
    · rw [if_pos hle, if_pos hle]
    · rw [if_neg hle, if_neg hle]
      exact ih (len - k.wrMore) (by omega) (u32_add_mod hc h _) _ _ _

theorem writeLoop_congr {a b : ℕ} (h : a % c.size = b % c.size) (k : Controller) (d : Nor)
    (buf : Mem) (len pageOffset : ℕ) (hpage : pageOffset < pageSize) (retlen : ℕ) :
    writeLoop k c d buf a len pageOffset hpage retlen =
      writeLoop k c d buf b len pageOffset hpage retlen := by
  induction len using Nat.strong_induction_on generalizing a b d buf pageOffset retlen with
  | h len ih =>
    rw [writeLoop]
    conv_rhs => rw [writeLoop]
    by_cases hlen : len = 0
    · rw [if_pos hlen, if_pos hlen]
    · rw [if_neg hlen, if_neg hlen]
      dsimp only
      rw [programPieces_congr hc h]
      exact ih _ (by omega) (u32_add_mod hc h _) _ _ _ _ _

theorem raspiWrite_congr {a b : ℕ} (h : a % c.size = b % c.size) (k : Controller) (d : Nor)
    (buf : Mem) {len : ℕ} (ha : u32 (a + len) ≤ c.size) (hb : u32 (b + len) ≤ c.size) :
    raspiWrite k c d buf a len = raspiWrite k c d buf b len := by
  have hpage : pageSize ∣ c.size := by
    obtain ⟨k, hk, heq⟩ := c.sector_pow
    exact Dvd.dvd.mul_right (heq ▸ pow_dvd_pow 2 hk) _
  have hoff : a % pageSize = b % pageSize := by
    rw [← Nat.mod_mod_of_dvd a hpage, h, Nat.mod_mod_of_dvd b hpage]
  unfold raspiWrite
  rw [if_neg (Nat.not_lt.mpr ha), if_neg (Nat.not_lt.mpr hb)]
  simp only [writeLoop_congr hc h, hoff]

end

/-- The buffer in which every byte is erased. -/
def erased : Mem := fun _ => 0xff

/-- The chip is not protected, and what was erased is erased still. -/
structure Grown (d d' : Nor) : Prop where
  unprotected : d'.Unprotected
  erased : ∀ x, d.mem x = 0xff → d'.mem x = 0xff

theorem Grown.refl {d : Nor} (hu : d.Unprotected) : Grown d d := ⟨hu, fun _ h => h⟩

theorem Grown.trans {d e f : Nor} (h : Grown d e) (h' : Grown e f) : Grown d f :=
  ⟨h'.unprotected, fun x hx => h'.erased x (h.erased x hx)⟩

theorem fill_erased (m : Mem) (a n : ℕ) {x : ℕ} (h : m x = 0xff) : m.fill a n 0xff x = 0xff := by
  unfold Mem.fill
  split
  · rfl
  · exact h

theorem raspiErase_grown (c : ChipInfo) {d : Nor} (hu : d.Unprotected) (offs len : ℕ) :
    (raspiErase c d offs len).1 = 0 ∧ Grown d (raspiErase c d offs len).2 ∧
      (len ≠ 0 → (raspiErase c d offs len).2.mem (busAddr c offs) = 0xff) := by
  have hpos := c.sectorSize_pos
  induction len using Nat.strong_induction_on generalizing d offs with
  | h len ih =>
    rw [raspiErase]
    by_cases hlen : len = 0
    · rw [if_pos hlen]
      exact ⟨rfl, Grown.refl hu, fun h => absurd hlen h⟩
    · obtain ⟨hret, hu', hmem⟩ := raspiEraseSector_mem c d offs hu
      rw [if_neg hlen]
      dsimp only
      rw [if_neg (by simp [hret])]
      obtain ⟨hr, hgrown, _⟩ := ih (len - c.sectorSize) (by omega) hu' (u32 (offs + c.sectorSize))
      have hfirst : Grown d (raspiEraseSector c d offs).2 :=
        ⟨hu', fun x hx => by rw [hmem]; exact fill_erased _ _ _ hx⟩
      refine ⟨hr, hfirst.trans hgrown, fun _ => hgrown.erased _ ?_⟩
      have hdiv := Nat.div_add_mod' (busAddr c offs) c.sectorSize
      have hmod := Nat.mod_lt (busAddr c offs) hpos
      rw [hmem, Mem.fill, if_pos (by omega)]

/-- Programming erased bytes changes nothing. -/
theorem programPieces_erased (k : Controller) (c : ChipInfo) (d : Nor) (hu : d.Unprotected)
    (wrto wrlen retlen : ℕ) :
    (programPieces k c d wrto wrlen erased retlen).1.Unprotected ∧
      (programPieces k c d wrto wrlen erased retlen).1.mem = d.mem := by
  have hmore := k.wrMore_pos
  have hprogram (d : Nor) (a n : ℕ) : (d.pageProgram a n erased).mem = d.mem := by
    unfold Nor.pageProgram
    split
    · funext x
      dsimp only [erased]
      split
      · exact UInt8.and_neg_one
      · rfl
    · rfl
  induction wrlen using Nat.strong_induction_on generalizing d wrto retlen with
  | h wrlen ih =>
    rw [programPieces]
    by_cases hle : wrlen ≤ k.wrMore
    · rw [if_pos hle]
      exact ⟨Nor.unprotected_pageProgram _ _ _ _ hu, hprogram _ _ _⟩
    · rw [if_neg hle]
      have hu' : (d.pageProgram (busAddr c wrto) k.wrMore erased).Unprotected :=
        Nor.unprotected_pageProgram _ _ _ _ hu
      obtain ⟨hun, hmem⟩ := ih (wrlen - k.wrMore) (by omega)
        (d.pageProgram (busAddr c wrto) k.wrMore erased).writeDisable.writeEnable hu'
        (u32 (wrto + k.wrMore)) (retlen + k.wrMore)
      exact ⟨hun, hmem.trans (hprogram _ _ _)⟩

theorem writeLoop_erased (k : Controller) (c : ChipInfo) (d : Nor) (hu : d.Unprotected)
    (dst len pageOffset : ℕ) (hpage : pageOffset < pageSize) (retlen : ℕ) :
    (writeLoop k c d erased dst len pageOffset hpage retlen).1.Unprotected ∧
      (writeLoop k c d erased dst len pageOffset hpage retlen).1.mem = d.mem := by
  induction len using Nat.strong_induction_on generalizing d dst pageOffset retlen with
  | h len ih =>
    rw [writeLoop]
    by_cases hlen : len = 0
    · rw [if_pos hlen]
      exact ⟨hu, rfl⟩
    · rw [if_neg hlen]
      dsimp only
      rw [raspiUnprotect_of_unprotected _ ((Nor.unprotected_writeEnable d).mpr hu)]
      obtain ⟨hun, hmem⟩ := programPieces_erased k c d.writeEnable hu dst
        (min len (pageSize - pageOffset)) retlen
      obtain ⟨hun', hmem'⟩ := ih (len - min len (pageSize - pageOffset)) (by omega)
        (programPieces k c d.writeEnable dst (min len (pageSize - pageOffset)) erased retlen).1 hun
        (u32 (dst + min len (pageSize - pageOffset))) 0 (by decide)
        (programPieces k c d.writeEnable dst (min len (pageSize - pageOffset)) erased retlen).2
      exact ⟨hun', hmem'.trans hmem⟩

theorem raspiWrite_erased (k : Controller) (c : ChipInfo) {d : Nor} (hu : d.Unprotected)
    (dst len : ℕ) : Grown d (raspiWrite k c d erased dst len).2 := by
  unfold raspiWrite
  split
  · exact Grown.refl hu
  split
  · exact Grown.refl hu
  split
  · exact Grown.refl hu
  · obtain ⟨hun, hmem⟩ := writeLoop_erased k c d hu dst len (dst % pageSize)
      (Nat.mod_lt _ (by decide)) 0
    refine ⟨hun, fun x hx => ?_⟩
    rw [← hmem] at hx
    exact hx

/-- Where the sector of an address lies on the chip. -/
def sectorBase (c : ChipInfo) (offs : ℕ) : ℕ := (offs - inBlock c offs) % c.size

section

variable {c : ChipInfo} (hc : c ∈ chipsData)
include hc

theorem sectorBase_spec (offs : ℕ) :
    c.sectorSize ∣ sectorBase c offs ∧ sectorBase c offs + c.sectorSize ≤ c.size := by
  have hlt : sectorBase c offs < c.size := Nat.mod_lt _ (chipsData_size hc).1
  have hdvd : c.sectorSize ∣ sectorBase c offs :=
    (Nat.dvd_mod_iff (Dvd.intro _ rfl)).mpr (dvd_blockaddr c offs)
  refine ⟨hdvd, ?_⟩
  have hend := sector_end_le c hlt
  rwa [inBlock_eq, Nat.mod_eq_zero_of_dvd hdvd, Nat.sub_zero] at hend

theorem raspiRead_sector (k : Controller) (d : Nor) (buf : Mem) (offs : ℕ) :
    raspiRead k c d buf (offs - inBlock c offs) c.sectorSize =
      ((c.sectorSize : ℤ), buf.copy 0 c.sectorSize (d.mem.shift (sectorBase c offs))) := by
  obtain ⟨_, hend⟩ := sectorBase_spec hc offs
  have hcongr : (offs - inBlock c offs) % c.size = sectorBase c offs % c.size :=
    (Nat.mod_mod _ _).symm
  rw [← raspiRead_spec k c d buf (sectorBase c offs) c.sectorSize hend]
  unfold raspiRead
  rw [readPieces_congr hc hcongr]

/-- Erase and write of the sector of an address: the write is refused, or has stored the
block. -/
theorem erase_write_sector (k : Controller) {d : Nor} (hu : d.Unprotected) (block : Mem)
    (offs : ℕ) :
    (raspiErase c d (offs - inBlock c offs) c.sectorSize).1 = 0 ∧
      (raspiWrite k c (raspiErase c d (offs - inBlock c offs) c.sectorSize).2 block
        (offs - inBlock c offs) c.sectorSize).2.Unprotected ∧
      ((raspiWrite k c (raspiErase c d (offs - inBlock c offs) c.sectorSize).2 block
          (offs - inBlock c offs) c.sectorSize).2.mem =
            d.mem.fill (sectorBase c offs) c.sectorSize 0xff ∨
        (raspiWrite k c (raspiErase c d (offs - inBlock c offs) c.sectorSize).2 block
          (offs - inBlock c offs) c.sectorSize).2.mem =
            d.mem.copy (sectorBase c offs) c.sectorSize block) := by
  obtain ⟨hdvd, hend⟩ := sectorBase_spec hc offs
  have hcongr : (offs - inBlock c offs) % c.size = sectorBase c offs % c.size :=
    (Nat.mod_mod _ _).symm
  have hone : 1 * c.sectorSize = c.sectorSize := Nat.one_mul _
  obtain ⟨hret, hun, hmem⟩ := raspiErase_spec c 1 d (sectorBase c offs) hu hdvd (by omega)
  obtain ⟨_, _, hun', hmem'⟩ := erase_write_spec k c 1 d block (sectorBase c offs) hu hdvd
    (by omega)
  rw [hone] at hret hun hmem hun' hmem'
  rw [raspiErase_congr hc hcongr]
  refine ⟨hret, ?_⟩
  by_cases hrange : u32 (offs - inBlock c offs + c.sectorSize) > c.size
  · have hpos := c.sectorSize_pos
    have hrefused : raspiWrite k c (raspiErase c d (sectorBase c offs) c.sectorSize).2 block
        (offs - inBlock c offs) c.sectorSize =
          (-1, (raspiErase c d (sectorBase c offs) c.sectorSize).2) := by
      rw [raspiWrite, if_neg (by omega), if_pos hrange]
    rw [hrefused]
    exact ⟨hun, Or.inl hmem⟩
  · have hbase : u32 (sectorBase c offs + c.sectorSize) ≤ c.size := by
      have := c.size_lt_u32
      rw [u32_of_lt (by omega)]
      exact hend
    rw [raspiWrite_congr hc hcongr k _ block (Nat.not_lt.mp hrange) hbase]
    exact ⟨hun', Or.inr hmem'⟩

end

theorem malloc_eq (f : Flash) : malloc f = (f.heap.headD true, ⟨f.nor, f.heap.tail⟩) := by
  unfold malloc
  cases hh : f.heap with
  | nil =>
    obtain ⟨nor, heap⟩ := f
    obtain rfl : heap = [] := hh
    rfl
  | cons b rest => rfl

theorem eraseWritePiece_fails (k : Controller) (c : ChipInfo) {f : Flash}
    (h : f.heap[0]? = some false ∨ f.heap[1]? = some false) (buf : Mem) (offs n : ℕ) :
    (eraseWritePiece k c f buf offs n).1 ≠ 0 ∧
      (eraseWritePiece k c f buf offs n).2.nor = f.nor := by
  obtain ⟨nor, heap⟩ := f
  unfold eraseWritePiece
  simp only [malloc_eq]
  rcases heap with _ | ⟨_ | _, _ | ⟨_ | _, heap⟩⟩
  all_goals
    first
      | exact ⟨by simp, rfl⟩
      | simp at h

/-- With its two allocations a pass ends on what the write leaves. -/
theorem eraseWritePiece_nor (k : Controller) {c : ChipInfo} (hc : c ∈ chipsData) {f : Flash}
    (hu : f.nor.Unprotected) (h : ¬(f.heap[0]? = some false ∨ f.heap[1]? = some false))
    (buf : Mem) (offs n : ℕ) :
    (eraseWritePiece k c f buf offs n).2.nor =
      (raspiWrite k c (raspiErase c f.nor (offs - inBlock c offs) c.sectorSize).2
        ((scratch.copy 0 c.sectorSize (f.nor.mem.shift (sectorBase c offs))).copy
          (inBlock c offs) n buf) (offs - inBlock c offs) c.sectorSize).2 := by
  obtain ⟨nor, heap⟩ := f
  have hrd := raspiRead_sector hc k nor scratch offs
  have her := (erase_write_sector hc k hu scratch offs).1
  have hfirst : heap.headD true = true := by
    rcases heap with _ | ⟨_ | _, heap⟩
    · rfl
    · simp at h
    · rfl
  have hsecond : heap.tail.headD true = true := by
    rcases heap with _ | ⟨_, _ | ⟨_ | _, heap⟩⟩
    · rfl
    · rfl
    · simp at h
    · rfl
  unfold eraseWritePiece
  simp only [malloc_eq, hrd, her, hfirst, hsecond, Bool.not_true, Bool.false_eq_true, ne_eq,
    not_true_eq_false, if_false]
  split_ifs <;> rfl

/-- A pass keeps what is erased, and erases its first byte. -/
theorem eraseWritePiece_grown (k : Controller) {c : ChipInfo} (hc : c ∈ chipsData) {f : Flash}
    (hu : f.nor.Unprotected) (offs n : ℕ) :
    Grown f.nor (eraseWritePiece k c f erased offs n).2.nor ∧
      (0 < n → ¬(f.heap[0]? = some false ∨ f.heap[1]? = some false) →
        (eraseWritePiece k c f erased offs n).2.nor.mem (sectorBase c offs + inBlock c offs) =
          0xff) := by
  have hin := inBlock_lt c offs
  by_cases hheap : f.heap[0]? = some false ∨ f.heap[1]? = some false
  · rw [(eraseWritePiece_fails k c hheap erased offs n).2]
    exact ⟨Grown.refl hu, fun _ h => absurd hheap h⟩
  rw [eraseWritePiece_nor k hc hu hheap]
  set block := (scratch.copy 0 c.sectorSize (f.nor.mem.shift (sectorBase c offs))).copy
    (inBlock c offs) n erased with hblock
  obtain ⟨_, hun, hmem⟩ := erase_write_sector hc k hu block offs
  rcases hmem with hmem | hmem
  · refine ⟨⟨hun, fun x hx => ?_⟩, fun _ _ => ?_⟩
    · rw [hmem]
      exact fill_erased _ _ _ hx
    · rw [hmem, Mem.fill, if_pos (by omega)]
  · refine ⟨⟨hun, fun x hx => ?_⟩, fun hn _ => ?_⟩
    · rw [hmem, Mem.copy]
      split
      · next hrange =>
        rw [hblock, Mem.copy]
        split
        · rfl
        · rw [Mem.copy_start _ _ (by omega), Mem.shift_apply, Nat.add_sub_cancel' hrange.1]
          exact hx
      · exact hx
    · rw [hmem, Mem.copy_inside _ _ hin, hblock, Mem.copy, if_pos (by omega)]
      rfl

theorem eraseWriteAligned_grown (k : Controller) (c : ChipInfo) {f : Flash}
    (hu : f.nor.Unprotected) (offs n : ℕ) :
    Grown f.nor (eraseWriteAligned k c f erased offs n).2.nor ∧
      (n ≠ 0 → f.heap[0]? ≠ some false →
        (eraseWriteAligned k c f erased offs n).2.nor.mem (busAddr c offs) = 0xff) := by
  obtain ⟨nor, heap⟩ := f
  obtain ⟨her, hgrown, hfirst⟩ := raspiErase_grown c hu offs n
  have hwrite := raspiWrite_erased k c hgrown.unprotected offs n
  unfold eraseWriteAligned
  simp only [malloc_eq, her, ne_eq, not_true_eq_false, if_false]
  cases hok : heap.headD true with
  | false =>
    rw [Bool.not_false, if_pos rfl]
    refine ⟨Grown.refl hu, fun _ hheap => ?_⟩
    cases heap with
    | nil => cases hok
    | cons b rest =>
      obtain rfl : b = false := hok
      exact absurd rfl hheap
  | true =>
    rw [Bool.not_true, if_neg Bool.false_ne_true]
    split_ifs
    all_goals exact ⟨hgrown.trans hwrite, fun hn _ => hwrite.erased _ (hfirst hn)⟩

/-- However the loop ends, what is erased stays erased. -/
theorem eraseWriteLoop_grown (k : Controller) {c : ChipInfo} (hc : c ∈ chipsData) (f : Flash)
    (hu : f.nor.Unprotected) (offs count : ℕ) :
    Grown f.nor (eraseWriteLoop k c f erased offs count).2.nor := by
  have hpos := c.sectorSize_pos
  induction count using Nat.strong_induction_on generalizing f offs with
  | h count ih =>
    rw [eraseWriteLoop]
    by_cases hcount : count = 0
    · rw [if_pos hcount]
      exact Grown.refl hu
    rw [if_neg hcount]
    split
    · have hpiece := (eraseWritePiece_grown k hc hu offs
        (min count (c.sectorSize - inBlock c offs))).1
      have hin := inBlock_lt c offs
      dsimp only
      split
      · exact hpiece
      · exact hpiece.trans (ih _ (by omega) _ hpiece.unprotected _)
    · next hlarge =>
      have haligned := (eraseWriteAligned_grown k c hu offs (count - inBlock c count)).1
      have hin := inBlock_lt c count
      dsimp only
      split
      · exact haligned
      · exact haligned.trans (ih _ (by omega) _ haligned.unprotected _)

/-- An allocation of the first pass fails. -/
def firstPassFails (c : ChipInfo) (heap : List Bool) (offs count : ℕ) : Prop :=
  heap[0]? = some false ∨
    (inBlock c offs ≠ 0 ∨ count < c.sectorSize) ∧ heap[1]? = some false

instance (c : ChipInfo) (heap : List Bool) (offs count : ℕ) :
    Decidable (firstPassFails c heap offs count) :=
  inferInstanceAs (Decidable (_ ∨ _ ∧ _))

/-- A chip that is not protected and holds no erased byte. -/
def blankNor : Nor := ⟨fun _ => 0, false, 0⟩

theorem blankNor_unprotected : blankNor.Unprotected :=
  show (0 : Byte) &&& srBp = 0 by decide

theorem eraseWriteLoop_fails (k : Controller) (c : ChipInfo) (f : Flash) {offs count : ℕ}
    (hcount : count ≠ 0) (h : firstPassFails c f.heap offs count) (buf : Mem) :
    (eraseWriteLoop k c f buf offs count).1 ≠ 0 ∧
      (eraseWriteLoop k c f buf offs count).2.nor = f.nor := by
  rw [eraseWriteLoop, if_neg hcount]
  split
  · next hpart =>
    obtain ⟨hret, hnor⟩ := eraseWritePiece_fails k c (h.imp_right And.right) buf offs
      (min count (c.sectorSize - inBlock c offs))
    dsimp only
    rw [if_pos hret]
    exact ⟨hret, hnor⟩
  · next hlarge =>
    obtain ⟨nor, heap⟩ := f
    have hfirst : heap.headD true = false := by
      rcases h with h | ⟨hpart, _⟩
      · rw [List.headD_eq_head?_getD, List.head?_eq_getElem?, h]
        rfl
      · exact absurd hpart hlarge
    have hfail : eraseWriteAligned k c ⟨nor, heap⟩ buf offs (count - inBlock c count) =
        (-1, ⟨nor, heap.tail⟩) := by
      unfold eraseWriteAligned
      simp only [malloc_eq, hfirst, Bool.not_false, if_true]
    have hneg : (-1 : ℤ) ≠ 0 := by decide
    dsimp only
    rw [hfail, if_pos hneg]
    exact ⟨hneg, rfl⟩

theorem headD_of_ne {heap : List Bool} (h : heap[0]? ≠ some false) : heap.headD true = true := by
  rcases heap with _ | ⟨_ | _, heap⟩
  · rfl
  · exact absurd rfl h
  · rfl

/-- With its allocations a pass does what it does without failing ones. -/
theorem eraseWritePiece_heap (k : Controller) (c : ChipInfo) {f : Flash}
    (h : ¬(f.heap[0]? = some false ∨ f.heap[1]? = some false)) (buf : Mem) (offs n : ℕ) :
    eraseWritePiece k c f buf offs n =
      ((eraseWritePiece k c ⟨f.nor, []⟩ buf offs n).1,
        ⟨(eraseWritePiece k c ⟨f.nor, []⟩ buf offs n).2.nor, f.heap.tail.tail⟩) := by
  rw [not_or] at h
  have hfirst : f.heap.headD true = true := headD_of_ne h.1
  have hsecond : f.heap.tail.headD true = true := by
    apply headD_of_ne
    rw [List.getElem?_tail]
    exact h.2
  have hempty : ([] : List Bool).headD true = true := rfl
  unfold eraseWritePiece
  simp only [malloc_eq, hfirst, hsecond, hempty, List.tail_nil, Bool.not_true, Bool.false_eq_true,
    if_false]
  split_ifs <;> rfl

theorem eraseWriteAligned_heap (k : Controller) (c : ChipInfo) {f : Flash}
    (h : f.heap[0]? ≠ some false) (buf : Mem) (offs n : ℕ) :
    eraseWriteAligned k c f buf offs n =
      ((eraseWriteAligned k c ⟨f.nor, []⟩ buf offs n).1,
        ⟨(eraseWriteAligned k c ⟨f.nor, []⟩ buf offs n).2.nor, f.heap.tail⟩) := by
  have hfirst : f.heap.headD true = true := headD_of_ne h
  have hempty : ([] : List Bool).headD true = true := rfl
  unfold eraseWriteAligned
  simp only [malloc_eq, hfirst, hempty, List.tail_nil, Bool.not_true, Bool.false_eq_true, if_false]
  split_ifs <;> rfl

/-- The bytes that a write from a sector boundary on stores: the whole sectors first,
then what is left of the last one. -/
def stored (c : ChipInfo) (heap : List Bool) (count : ℕ) : ℕ :=
  if firstPassFails c heap 0 count then 0
  else if c.sectorSize ≤ count ∧ inBlock c count ≠ 0 ∧
      (heap[1]? = some false ∨ heap[2]? = some false) then count - inBlock c count
  else count

theorem stored_le (c : ChipInfo) (heap : List Bool) (count : ℕ) : stored c heap count ≤ count := by
  unfold stored
  split_ifs <;> omega

/-- The write gets memory for its whole sectors and none for the rest. -/
def Torn (c : ChipInfo) (heap : List Bool) (count : ℕ) : Prop :=
  c.sectorSize ≤ count ∧ inBlock c count ≠ 0 ∧ heap[0]? ≠ some false ∧
    (heap[1]? = some false ∨ heap[2]? = some false)

theorem inBlock_of_dvd {c : ChipInfo} {offs : ℕ} (h : c.sectorSize ∣ offs) :
    inBlock c offs = 0 := by
  rw [inBlock_eq, Nat.mod_eq_zero_of_dvd h]

theorem stored_of_torn {c : ChipInfo} {heap : List Bool} {count : ℕ} (h : Torn c heap count) :
    stored c heap count = count - inBlock c count := by
  obtain ⟨hlarge, hrest, hone, hpiece⟩ := h
  have hfirst : ¬firstPassFails c heap 0 count := by
    rw [firstPassFails, inBlock_of_dvd (Nat.dvd_zero _), not_or]
    exact ⟨hone, fun h => by omega⟩
  rw [stored, if_neg hfirst, if_pos ⟨hlarge, hrest, hpiece⟩]

/-- Nothing, all of it, or the whole sectors of a torn write. -/
theorem stored_cases (c : ChipInfo) (heap : List Bool) (count : ℕ) :
    stored c heap count = 0 ∨ stored c heap count = count ∨ Torn c heap count := by
  unfold stored
  split_ifs with hfirst hrest
  · exact Or.inl rfl
  · obtain ⟨hlarge, hrest, hpiece⟩ := hrest
    exact Or.inr (Or.inr ⟨hlarge, hrest, fun h => hfirst (Or.inl h), hpiece⟩)
  · exact Or.inr (Or.inl rfl)

/-- One piece in its sector. -/
theorem eraseWriteLoop_piece (k : Controller) (c : ChipInfo) {f : Flash} (buf : Mem)
    {offs count : ℕ} (hu : f.nor.Unprotected) (hal : c.sectorSize ∣ offs)
    (hfit : offs + count ≤ c.size) (hpos : 0 < count) (hsmall : count < c.sectorSize)
    (h : ¬(f.heap[0]? = some false ∨ f.heap[1]? = some false)) :
    (eraseWriteLoop k c f buf offs count).1 = 0 ∧
      (eraseWriteLoop k c f buf offs count).2.nor.mem = f.nor.mem.copy offs count buf := by
  have hin : inBlock c offs = 0 := inBlock_of_dvd hal
  have hout := eraseWritePiece_spec k c ⟨f.nor, []⟩ buf offs count hu (by omega) (by omega)
  have hret := (hout.2 rfl).1
  have hmin : min count (c.sectorSize - 0) = count := by omega
  rw [eraseWriteLoop, if_neg (by omega), if_pos (Or.inr hsmall), hin, hmin]
  dsimp only
  rw [eraseWritePiece_heap k c h, if_neg (not_not.mpr hret), Nat.sub_self, eraseWriteLoop,
    if_pos rfl]
  exact ⟨rfl, (hout.1 hret).2⟩

/-- A write from a sector boundary on that fits stores a prefix of the buffer, and
reports no error exactly when that is all of it. -/
theorem eraseWriteLoop_stored (k : Controller) (c : ChipInfo) (f : Flash) (buf : Mem)
    {offs count : ℕ} (hu : f.nor.Unprotected) (hal : c.sectorSize ∣ offs)
    (hfit : offs + count ≤ c.size) (hpos : 0 < count) :
    ((eraseWriteLoop k c f buf offs count).1 = 0 ↔ stored c f.heap count = count) ∧
      (eraseWriteLoop k c f buf offs count).2.nor.mem =
        f.nor.mem.copy offs (stored c f.heap count) buf := by
  have hin : inBlock c offs = 0 := inBlock_of_dvd hal
  have hin0 : inBlock c 0 = 0 := inBlock_of_dvd (Nat.dvd_zero _)
  by_cases hfirst : firstPassFails c f.heap 0 count
  · have hfail : firstPassFails c f.heap offs count := by
      rw [firstPassFails, hin0] at hfirst
      rw [firstPassFails, hin]
      exact hfirst
    obtain ⟨hret, hnor⟩ := eraseWriteLoop_fails k c f (Nat.ne_of_gt hpos) hfail buf
    rw [stored, if_pos hfirst, hnor, Mem.copy_zero]
    exact ⟨iff_of_false hret (by omega), rfl⟩
  have hfirst' := hfirst
  rw [firstPassFails, hin0, not_or] at hfirst'
  obtain ⟨hone, htwo⟩ := hfirst'
  by_cases hsmall : count < c.sectorSize
  · have hstored : stored c f.heap count = count := by
      rw [stored, if_neg hfirst, if_neg (by omega)]
    obtain ⟨hret, hmem⟩ := eraseWriteLoop_piece k c buf hu hal hfit hpos hsmall
      (not_or.mpr ⟨hone, fun h => htwo ⟨Or.inr hsmall, h⟩⟩)
    rw [hstored]
    exact ⟨iff_of_true hret rfl, hmem⟩
  -- The whole sectors are one pass, the rest is a piece at the next boundary.
  have hblock := inBlock_lt c count
  set whole := count - inBlock c count with hwhole
  have hwholeEq : whole = count / c.sectorSize * c.sectorSize := by
    have := Nat.div_add_mod' count c.sectorSize
    rw [hwhole, inBlock_eq]
    omega
  have hout := eraseWriteAligned_spec k c (count / c.sectorSize) ⟨f.nor, []⟩ buf offs hu hal
    (by omega)
  rw [← hwholeEq] at hout
  have hret := (hout.2 rfl).1
  obtain ⟨hun, hmem⟩ := hout.1 hret
  have hrange : offs + whole < 2 ^ 32 := lt_of_le_of_lt (by omega) c.size_lt_u32
  rw [eraseWriteLoop, if_neg (by omega), if_neg (by rw [hin]; simpa using hsmall), ← hwhole]
  dsimp only
  have hleft : count - whole = inBlock c count := by omega
  rw [eraseWriteAligned_heap k c hone, if_neg (not_not.mpr hret), u32_of_lt hrange, hleft]
  by_cases hrest : inBlock c count = 0
  · rw [hrest, eraseWriteLoop, if_pos rfl, stored, if_neg hfirst, if_neg (by omega)]
    refine ⟨iff_of_true rfl rfl, ?_⟩
    rw [hmem, show whole = count by omega]
  have hal' : c.sectorSize ∣ offs + whole := Nat.dvd_add hal ⟨_, by rw [hwholeEq, Nat.mul_comm]⟩
  by_cases hpiece : f.heap[1]? = some false ∨ f.heap[2]? = some false
  · have hfail : firstPassFails c f.heap.tail (offs + whole) (inBlock c count) := by
      rw [firstPassFails, List.getElem?_tail, List.getElem?_tail]
      exact hpiece.imp_right fun h => ⟨Or.inr hblock, h⟩
    obtain ⟨hret', hnor⟩ := eraseWriteLoop_fails k c
      ⟨(eraseWriteAligned k c ⟨f.nor, []⟩ buf offs whole).2.nor, f.heap.tail⟩ hrest hfail
      (buf.shift whole)
    rw [stored, if_neg hfirst, if_pos ⟨by omega, hrest, hpiece⟩, hnor, hmem]
    exact ⟨iff_of_false hret' (by omega), rfl⟩
  · obtain ⟨hret', hmem'⟩ := eraseWriteLoop_piece k c
      (f := ⟨(eraseWriteAligned k c ⟨f.nor, []⟩ buf offs whole).2.nor, f.heap.tail⟩)
      (buf.shift whole) hun hal' (by omega) (Nat.pos_of_ne_zero hrest) hblock
      (by rw [List.getElem?_tail, List.getElem?_tail]; exact hpiece)
    rw [stored, if_neg hfirst, if_neg fun h => hpiece h.2.2]
    refine ⟨iff_of_true hret' rfl, ?_⟩
    rw [hmem', hmem, Mem.copy_append, show whole + inBlock c count = count by omega]

/-- The first pass erases a byte when it has its memory. -/
theorem eraseWriteLoop_erases (k : Controller) {c : ChipInfo} (hc : c ∈ chipsData) (f : Flash)
    (hu : f.nor.Unprotected) {offs count : ℕ} (hcount : count ≠ 0)
    (h : ¬firstPassFails c f.heap offs count) :
    ∃ x, (eraseWriteLoop k c f erased offs count).2.nor.mem x = 0xff := by
  rw [firstPassFails, not_or] at h
  obtain ⟨hfirst, hsecond⟩ := h
  rw [eraseWriteLoop, if_neg hcount]
  split
  · next hpart =>
    have hin := inBlock_lt c offs
    obtain ⟨hgrown, hbyte⟩ := eraseWritePiece_grown k hc hu offs
      (min count (c.sectorSize - inBlock c offs))
    have hmem := hbyte (by omega) (not_or.mpr ⟨hfirst, fun h => hsecond ⟨hpart, h⟩⟩)
    dsimp only
    split
    · exact ⟨_, hmem⟩
    · exact ⟨_, (eraseWriteLoop_grown k hc _ hgrown.unprotected _ _).erased _ hmem⟩
  · next hlarge =>
    have hin := inBlock_lt c count
    obtain ⟨hgrown, hbyte⟩ := eraseWriteAligned_grown k c hu offs (count - inBlock c count)
    have hmem := hbyte (by omega) hfirst
    dsimp only
    split
    · exact ⟨_, hmem⟩
    · exact ⟨_, (eraseWriteLoop_grown k hc _ hgrown.unprotected _ _).erased _ hmem⟩

/-- A write that runs over the end of the chip is refused without a change, for every
content and buffer, exactly when it is not empty and its first pass gets no memory. -/
theorem raspiEraseWrite_refused_iff (k : Controller) (c : ChipInfo) (hc : c ∈ chipsData)
    (heap : List Bool) (offs count : ℕ)
    (hlimit : count + (cfgBootloaderSize + cfgConfigSize + cfgFactorySize) ≤ c.size)
    (_hrange : c.size < offs + count) :
    (∀ (nor : Nor) (buf : Mem), (raspiEraseWrite k c ⟨nor, heap⟩ buf offs count).1 ≠ 0 ∧
        (raspiEraseWrite k c ⟨nor, heap⟩ buf offs count).2.nor.mem = nor.mem) ↔
      count ≠ 0 ∧ firstPassFails c heap offs count := by
  simp only [raspiEraseWrite_of_limit k c _ _ offs count hlimit]
  constructor
  · intro h
    obtain ⟨hret, hmem⟩ := h blankNor erased
    have hcount : count ≠ 0 := by
      rintro rfl
      rw [eraseWriteLoop, if_pos rfl] at hret
      exact hret rfl
    refine ⟨hcount, ?_⟩
    by_contra hheap
    obtain ⟨x, hx⟩ := eraseWriteLoop_erases k hc ⟨blankNor, heap⟩ blankNor_unprotected hcount hheap
    rw [hmem] at hx
    exact absurd hx (show ¬(0 : Byte) = 0xff by decide)
  · rintro ⟨hcount, hheap⟩ nor buf
    obtain ⟨hret, hnor⟩ := eraseWriteLoop_fails k c ⟨nor, heap⟩ hcount hheap buf
    exact ⟨hret, by rw [hnor]⟩

/-- One byte behind the end of a chip of 8 MiB, without memory. -/
theorem raspiEraseWrite_refused_no_memory :
    let f : Flash := ⟨⟨fun _ => 0, true, 0⟩, [false]⟩
    (raspiEraseWrite rt6855A chipsData[6] f erased 0x800000 1).1 ≠ 0 ∧
      (raspiEraseWrite rt6855A chipsData[6] f erased 0x800000 1).2.nor.mem = fun _ => 0 :=
  (raspiEraseWrite_refused_iff rt6855A chipsData[6] (List.getElem_mem _) [false] 0x800000 1
    (by decide) (by decide)).mpr ⟨by decide, Or.inl rfl⟩ ⟨fun _ => 0, true, 0⟩ erased

/-- With memory the same call erases a byte of a low sector. -/
theorem write_past_end_erases :
    ∃ x, (raspiEraseWrite rt6855A chipsData[6] ⟨blankNor, []⟩ erased 0x800000 1).2.nor.mem x =
      0xff := by
  have hlimit : 1 + (cfgBootloaderSize + cfgConfigSize + cfgFactorySize) ≤ chipsData[6].size := by
    decide
  have hcall := raspiEraseWrite_of_limit rt6855A chipsData[6] ⟨blankNor, []⟩ erased
    0x800000 1 hlimit
  rw [show ((1 : ℕ) : ℤ) = 1 from rfl] at hcall
  rw [hcall]
  exact eraseWriteLoop_erases rt6855A (List.getElem_mem _) ⟨blankNor, []⟩ blankNor_unprotected
    (by decide) (by simp [firstPassFails])

end Iot7688.SpiFlash
