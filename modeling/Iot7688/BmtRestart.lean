import Iot7688.BmtRecovery

/-!
A restart after update_bmt. Between calls every block of the pool but the one of the
table is bad or holds no page that passes for a table; an update that succeeds writes the
page of the table, and the loader of a fresh init_bmt finds it.
-/
namespace Iot7688.Bmt

section

variable (c : Conf)

/-- Between calls; the sweep that is due makes the free blocks calm. -/
structure Orderly (s : St) : Prop where
  map : MapInv c s.bmt
  entries : EntriesValid c s.bmt
  index : s.bmtBlockIndex ≠ 0 → InPool c s.bmtBlockIndex
  mapped : ∀ b, isBlockMapped s.bmt b ≠ none → b ≠ s.bmtBlockIndex → Calm c (NoTable c) s b
  free : ReadyCalm c (NoTable c) s

/-- The first page of the replacement is known and passes for no table. -/
structure MigrationOk (s : St) (offset : ℕ) (dat : Option Buf) : Prop where
  kept : Kept c s (offset / c.blockSize)
  image : offset / c.pageSize % c.pagePerBlock = 0 →
    ∃ d, dat = some d ∧ NoTable c (errorPageImage c (offset / c.blockSize) d)
  copy : MovesFirst c (offset / c.blockSize) (offset / c.pageSize % c.pagePerBlock) s →
    NoTable c (copyPage c (offset / c.blockSize) (firstPage c s (offset / c.blockSize)))

/-- The bad block mark at the end of update_bmt is not put on the table. -/
def MarkSpares (host : Host) (s : St) (offset : ℕ) : Prop :=
  let block := offset / c.blockSize
  ¬InPool c block ∨ ¬FirstPage c offset ∨
    block ≠ s.bmtBlockIndex ∧ (bad c s.flash block = true ∨
      s.bmtBlockIndex ≠ 0 ∧ (∀ tick, host.eraseOk tick s.bmtBlockIndex = true) ∧
        ∀ tick, host.write tick (s.bmtBlockIndex * c.pagePerBlock) = .ok)

/-- The condition on one call of update_bmt; the controller is as the driver expects. -/
structure UpdateOk (host : Host) (fuel : ℕ) (s : St) (offset : ℕ) (reason : UpdateReason)
    (dat : Option Buf) : Prop where
  marks : MarksWork c host
  faithful : Faithful host
  fits : Fits c
  verified : Verified c host (replace c host fuel offset reason dat s).2
  mark : MarkSpares c host s offset
  migration : reason = .writeFail → MigrationOk c s offset dat

def AllCalm (Q : Buf → Prop) (s : St) : Prop :=
  ∀ b, InPool c b → b ≠ s.bmtBlockIndex → Calm c Q s b

end

variable {c : Conf} {host : Host} {Q : Buf → Prop}

theorem updateTable_inv (hc : Counts c) {bmt : BmtStruct} (h : MapInv c bmt) {n : ℕ}
    (hn : InPool c n) (hfree : isBlockMapped bmt n = none) (b : ℕ) :
    MapInv c (updateTable c bmt b n) := by
  by_cases hpool : b ≥ c.systemBlockCount
  · by_cases hb : isBlockMapped bmt b = none
    · exact (updateTable_unmapped hc h hb hpool (lt_of_lt_of_le hn.2 hc.index)).1
    · obtain ⟨i, hfind, hi, hib⟩ := find_mapped hc h hb
      rw [updateTable, if_pos hpool, hfind, Option.getD_some]
      exact (setMapped_remapped hc h hn hfree hi hib).inv
  · rw [updateTable, if_neg hpool]
    exact (append_remapped hc h hn hfree b 0).inv

theorem updateTable_entries (hc : Counts c) {bmt : BmtStruct} (hmap : MapInv c bmt)
    (h : EntriesValid c bmt) {n : ℕ} (hn : InPool c n) (hfree : isBlockMapped bmt n = none)
    (b : ℕ) : EntriesValid c (updateTable c bmt b n) := by
  intro i hi
  refine ⟨?_, (updateTable_inv hc hmap hn hfree b).pool i hi⟩
  have hle := hmap.count_le hc.total
  have hsize := hc.size
  have hidx := hc.index
  unfold maxBmtSize at hsize
  unfold updateTable at hi ⊢
  split
  · rename_i hpool
    rw [if_pos hpool] at hi
    have hsame (j : ℕ) : ((bmt.setMapped j n).table i).badIndex = (bmt.table i).badIndex := by
      unfold BmtStruct.setMapped Function.update
      dsimp only
      split
      · next heq =>
        subst heq
        rfl
      · rfl
    rw [hsame]
    exact (h i hi).1
  · rename_i hsys
    rw [if_neg hsys] at hi
    have hi' : i < (bmt.mappedCount + 1) % 2 ^ 8 := hi
    unfold BmtStruct.append
    dsimp only
    by_cases hlast : i = bmt.mappedCount
    · rw [hlast, Function.update_self]
      have htotal := hc.total
      show b % 2 ^ 16 < c.totalBlockCount
      omega
    · rw [Function.update_of_ne hlast]
      exact (h i (by omega)).1

theorem Landed.calm_of {offset : ℕ} {dat : Option Buf} {n : ℕ} {s t : St}
    (hok : MigrationOk c s offset dat)
    (h : Landed c (NoTable c) (offset / c.blockSize) (offset / c.pageSize % c.pagePerBlock) dat n
      s t) : Calm c (NoTable c) t n := by
  right
  by_cases hpage : offset / c.pageSize % c.pagePerBlock = 0
  · obtain ⟨d, hd, hno⟩ := hok.image hpage
    obtain ⟨d', hd', hsame⟩ := h.image hpage
    obtain rfl := hd' d hd
    exact noTable_congr hsame hno
  · by_cases hmoves : MovesFirst c (offset / c.blockSize) (offset / c.pageSize % c.pagePerBlock) s
    · exact noTable_congr (h.copy hmoves) (hok.copy hmoves)
    · exact (h.calm hpage hmoves).2

/-- What the first half of update_bmt leaves of the pages. -/
structure ReplacedPages (c : Conf) (Q : Buf → Prop) (s : St) (r : Option ℕ × St) : Prop where
  bmt : r.2.bmt = s.bmt
  index : r.2.bmtBlockIndex = s.bmtBlockIndex
  kept : ∀ p, Kept c s (p / c.pagePerBlock) → r.2.flash.page p = s.flash.page p
  done : ∀ n, r.1 = some n → r.2.poolErased = true ∧ (∀ b, Free c s b → Calm c Q r.2 b) ∧
    (n ≠ 0 → Free c s n)

theorem replace_pages (hc : Counts c) (fuel : ℕ) {offset : ℕ} {reason : UpdateReason}
    {dat : Option Buf} {s : St} (h : ReadyCalm c (NoTable c) s) (hmarks : MarksWork c host)
    (hfaith : Faithful host) (hmig : reason = .writeFail → MigrationOk c s offset dat) :
    ReplacedPages c (NoTable c) s (replace c host fuel offset reason dat s) := by
  unfold replace
  by_cases hreason : reason = .writeFail
  · rw [if_pos hreason]
    have hok := hmig hreason
    have hm := migrateFromBad_pages hfaith noTable_blank hmarks hc fuel dat h hok.kept
    refine ⟨hm.bmt, hm.index, hm.kept, fun n hn => ?_⟩
    obtain ⟨hswept, hcalm, hland⟩ := hm.done n hn
    refine ⟨hswept, fun b hb => ?_, fun hne => (hland hne).1⟩
    by_cases hbn : b = n
    · have hne : n ≠ 0 := by
        have hpos := hc.system
        have := hb.1.1
        omega
      rw [hbn]
      exact (hland hne).2.calm_of hok
    · exact hcalm b hbn hb
  · rw [if_neg hreason]
    have hfound : FoundPages c (NoTable c) s (findAvailableBlock c host false s) :=
      findAvailableBlock_pages noTable_blank hmarks hc false s
    refine ⟨hfound.bmt, hfound.index, hfound.kept, fun n hn => ?_⟩
    obtain rfl := Option.some.inj hn
    exact ⟨hfound.swept, fun b hb => hfound.free h b
      ⟨hb.1, hfound.index ▸ hb.2.1, hfound.bmt ▸ hb.2.2⟩, fun hne => (hfound.found hne).1⟩

theorem AllCalm.orderly {s : St} (h : AllCalm c (NoTable c) s) (hmap : MapInv c s.bmt)
    (hentries : EntriesValid c s.bmt) (hidx : s.bmtBlockIndex ≠ 0 → InPool c s.bmtBlockIndex) :
    Orderly c s where
  map := hmap
  entries := hentries
  index := hidx
  mapped := by
    intro b hb hne
    rw [ne_eq, isBlockMapped_none] at hb
    push Not at hb
    obtain ⟨i, hi, rfl⟩ := hb
    exact h _ (hmap.pool i hi) hne
  free := fun b hb => Or.inl (h b hb.1 hb.2.1)

theorem ReplacedPages.allCalm {s : St} {r : Option ℕ × St} (h : ReplacedPages c (NoTable c) s r)
    (hs : Orderly c s) {n : ℕ} (hn : r.1 = some n) : AllCalm c (NoTable c) r.2 := by
  intro b hb hne
  rw [h.index] at hne
  by_cases hmapped : isBlockMapped s.bmt b = none
  · exact (h.done n hn).2.1 b ⟨hb, hne, hmapped⟩
  · refine (hs.mapped b hmapped hne).of_firstPage (h.kept _ ?_)
    rw [page_block]
    exact Or.inr (Or.inl hmapped)

theorem WrotePages.allCalm (hc : Counts c) {s : St} {r : Option Bool × St}
    (h : WrotePages c host Q s r) (hs : AllCalm c Q s) (hr : r.1 ≠ none) : AllCalm c Q r.2 := by
  intro b hb hne
  by_cases hmapped : isBlockMapped r.2.bmt b = none
  · exact (h.free hr).1 b ⟨hb, hne, hmapped⟩
  · rw [h.bmt] at hmapped
    by_cases hold : s.bmtBlockIndex ≠ 0 ∧ b = s.bmtBlockIndex
    · -- a table block that was given up is marked bad
      left
      rcases h.old hold.1 with hsame | hbad
      · exact absurd (hold.2.trans hsame.symm) hne
      · rwa [hold.2]
    · have hpos : b ≠ 0 := by
        have hsys := hc.system
        have := hb.1
        omega
      have hne' : b ≠ s.bmtBlockIndex := by
        rintro rfl
        exact hold ⟨hpos, rfl⟩
      refine (hs b hb hne').of_firstPage (h.kept _ ?_ fun _ => ?_)
      · rw [page_block]
        exact Or.inr (Or.inl hmapped)
      · rwa [page_block]

theorem markBlockBadBmt_calm (hmarks : MarksWork c host) {offset b : ℕ} {s : St} (hb : InPool c b)
    (h : Calm c Q s b) : Calm c Q (markBlockBadBmt c host offset s) b := by
  by_cases hpage : b * c.pagePerBlock = offset >>> c.pageSizeBit
  · left
    have hblock : offset / c.blockSize = b := by
      rw [← offset_block, ← hpage, page_block]
    rw [← hblock]
    refine markBlockBadBmt_bad (by rw [← hpage, hblock]) (hmarks _ _ ?_)
    rw [hblock]
    exact Nat.mul_le_mul_right _ hb.1
  · exact h.of_firstPage (markBlockBadBmt_page s hpage)

/-- The second half of update_bmt, from the state with the changed table. -/
theorem store_orderly (hc : Counts c) (hfaith : Faithful host) (hmarks : MarksWork c host)
    (hfits : Fits c) {fuel offset : ℕ} {s : St} {buf : Buf} (hmap : MapInv c s.bmt)
    (hentries : EntriesValid c s.bmt) (hidx : s.bmtBlockIndex ≠ 0 → InPool c s.bmtBlockIndex)
    (hswept : s.poolErased = true) (hcalm : AllCalm c (NoTable c) s)
    (hbuf : s.pageBuf = fillNandBmtBuffer c s.bmt (clearOob c buf)) (hverified : Verified c host s)
    (hspare : ∀ w, writeBmtToFlash c host fuel s = (some true, w) → TableStored c host s w →
      w.bmtBlockIndex * c.pagePerBlock ≠ offset >>> c.pageSizeBit)
    {ret : Bool} {s' : St} (h : store c host fuel offset s = (some ret, s')) :
    Orderly c s' ∧ (ret = true → Survives c s') := by
  have hw := writeBmtToFlash_pages hfaith noTable_blank hmarks hc fuel
    ⟨hidx, fun b hb => Or.inl (hcalm b hb.1 hb.2.1), fun _ => hswept⟩
  unfold store at h
  dsimp only at h
  set w := writeBmtToFlash c host fuel s with hwdef
  by_cases htrue : w.1 = some true
  · rw [if_pos htrue] at h
    obtain ⟨hret, rfl⟩ := Prod.mk.inj h
    have hall := hw.allCalm hc hcalm (by simp [htrue])
    have hstored := hw.done htrue
    have hne := hspare w.2 (by rw [← htrue]) hstored
    have honly : OnlyPages c (offset / c.blockSize) w.2 (markBlockBadBmt c host offset w.2) :=
      markBlockBadBmt_pages offset w.2
    set t := markBlockBadBmt c host offset w.2
    have hall' : AllCalm c (NoTable c) t := by
      intro b hb hbt
      refine markBlockBadBmt_calm hmarks hb (hall b hb ?_)
      rwa [honly.index] at hbt
    have hmap' : MapInv c t.bmt := by rwa [honly.bmt, hw.bmt]
    have hentries' : EntriesValid c t.bmt := by rwa [honly.bmt, hw.bmt]
    refine ⟨hall'.orderly hmap' hentries' fun _ => honly.index ▸ hstored.pool, fun _ => ?_⟩
    refine survives_of_image hc hfits hmap' hentries' (honly.index ▸ hstored.pool) buf ?_ hall'
    have hpage : firstPage c t t.bmtBlockIndex = firstPage c w.2 w.2.bmtBlockIndex := by
      rw [honly.index]
      exact markBlockBadBmt_page w.2 hne
    rw [hpage, hstored.verified hverified, hbuf, honly.bmt, hw.bmt]
  · rw [if_neg htrue] at h
    have hall := hw.allCalm hc hcalm (by simp [h])
    rw [h] at hw hall htrue
    refine ⟨hall.orderly (by rwa [hw.bmt]) (by rwa [hw.bmt]) hw.index, fun hret => ?_⟩
    rw [hret] at htrue
    exact absurd rfl htrue

/-- The mark at the end is not on the page of the table. -/
theorem MarkSpares.spared {offset fuel : ℕ} {s t w : St} (h : MarkSpares c host s offset)
    (hindex : t.bmtBlockIndex = s.bmtBlockIndex)
    (hbad : bad c s.flash (offset / c.blockSize) = true →
      bad c t.flash (offset / c.blockSize) = true)
    (hwrite : writeBmtToFlash c host fuel t = (some true, w)) (hstored : TableStored c host t w) :
    w.bmtBlockIndex * c.pagePerBlock ≠ offset >>> c.pageSizeBit := by
  intro hpage
  have hblock : offset / c.blockSize = w.bmtBlockIndex := by
    rw [← offset_block, ← hpage, page_block]
  rcases h with hout | hfirst | ⟨hne, hcase⟩
  · rw [hblock] at hout
    exact hout hstored.pool
  · exact hfirst (by rw [FirstPage, hblock, hpage])
  rcases hcase with hmark | ⟨hidx, herase, hok⟩
  · rcases hstored.place with hold | ⟨hgood, _⟩
    · rw [hblock, hold, hindex] at hne
      exact hne rfl
    · rw [← hblock, hbad hmark] at hgood
      cases hgood
  · cases fuel with
    | zero => cases hwrite
    | succ fuel =>
      rw [← hindex] at hidx herase hok hne
      obtain ⟨w', hrun, honly⟩ := writeBmtToFlash_first_try hidx herase hok fuel
      rw [hrun] at hwrite
      obtain rfl := (Prod.mk.inj hwrite).2
      rw [hblock, honly.index] at hne
      exact hne rfl

theorem updateBmt_orderly (hc : Counts c) {fuel offset : ℕ} {reason : UpdateReason}
    {dat : Option Buf} {s s' : St} {ret : Bool} (h : Orderly c s)
    (hok : UpdateOk c host fuel s offset reason dat)
    (hupdate : updateBmt c host fuel offset reason dat s = (some ret, s')) :
    Orderly c s' ∧ (ret = true → Survives c s') := by
  obtain ⟨hmarks, hfaith, hfits, hverified, hspares, hmig⟩ := hok
  have hm := replace_pages hc fuel h.free hmarks hfaith hmig
  rw [updateBmt_eq] at hupdate
  set m := replace c host fuel offset reason dat s
  have hidx : m.2.bmtBlockIndex ≠ 0 → InPool c m.2.bmtBlockIndex := by
    rw [hm.index]
    exact h.index
  cases hres : m.1 with
  | none =>
    rw [hres] at hupdate
    cases hupdate
  | some n =>
    rw [hres] at hupdate
    dsimp only at hupdate
    have hcalm := hm.allCalm h hres
    obtain ⟨hswept, _, hfound⟩ := hm.done n hres
    by_cases hn : n = 0
    · rw [if_pos hn] at hupdate
      cases hupdate
      refine ⟨hcalm.orderly ?_ ?_ hidx, fun hret => by cases hret⟩
      · rw [hm.bmt]
        exact h.map
      · rw [hm.bmt]
        exact h.entries
    · rw [if_neg hn] at hupdate
      obtain ⟨hpool, _, hfree⟩ := hfound hn
      rw [← hm.bmt] at hfree
      have hmap : MapInv c m.2.bmt := hm.bmt ▸ h.map
      have hentries : EntriesValid c m.2.bmt := hm.bmt ▸ h.entries
      set t : St := { m.2 with bmt := _, pageBuf := _ }
      have hmap' : MapInv c t.bmt := updateTable_inv hc hmap hpool hfree _
      have hentries' : EntriesValid c t.bmt := updateTable_entries hc hmap hentries hpool hfree _
      have hcalm' : AllCalm c (NoTable c) t := hcalm
      have hverified' : Verified c host t := hverified
      have hindex : t.bmtBlockIndex = s.bmtBlockIndex := hm.index
      refine store_orderly hc hfaith hmarks hfits hmap' hentries' hidx hswept hcalm' rfl hverified'
        (fun w hw hstored => hspares.spared hindex (fun hbad => ?_) hw hstored) hupdate
      exact bad_of_kept hm.kept hbad

/-- The state after init_bmt: a table that was loaded maps to different blocks, no
mapped block holds a page that passes for a table, and the sweep is not skipped
unless it has nothing to do. -/
structure BootOk (c : Conf) (s : St) : Prop where
  distinct : ∀ i j, i < s.bmt.mappedCount → j < s.bmt.mappedCount →
    (s.bmt.table i).mappedIndex = (s.bmt.table j).mappedIndex → i = j
  mapped : ∀ b, isBlockMapped s.bmt b ≠ none → b ≠ s.bmtBlockIndex → Calm c (NoTable c) s b
  sweep : s.bmtBlockIndex = c.systemBlockCount → FreeCalm c (NoTable c) s

/-- What the driver does between calls: it uses blocks of the system part and the mapped
blocks, and writes no page to these that passes for a table. -/
structure DriverStep (c : Conf) (s : St) (flash : Flash) : Prop where
  unmapped : ∀ b, InPool c b → isBlockMapped s.bmt b = none →
    flash.page (b * c.pagePerBlock) = s.flash.page (b * c.pagePerBlock)
  mapped : ∀ b, isBlockMapped s.bmt b ≠ none →
    bad c flash b = true ∨ NoTable c (flash.page (b * c.pagePerBlock))

/-- States between calls. -/
inductive BootRun (c : Conf) : St → Prop
  | init (host : Host) (fuel : ℕ) (s s' : St) (hmarks : MarksWork c host) (hfaith : Faithful host)
      (hinit : initBmt c host fuel s = (some true, s')) (hok : BootOk c s') : BootRun c s'
  | update (host : Host) (fuel offset : ℕ) (reason : UpdateReason) (dat : Option Buf) (s s' : St)
      (ret : Bool) (hrun : BootRun c s) (hok : UpdateOk c host fuel s offset reason dat)
      (hupdate : updateBmt c host fuel offset reason dat s = (some ret, s')) : BootRun c s'
  | drive (flash : Flash) (s : St) (hrun : BootRun c s) (hok : DriverStep c s flash) :
      BootRun c { s with flash := flash }

theorem reconstructBmt_entriesValid (hc : Counts c) (host : Host) (fuel : ℕ) (s : St) :
    EntriesValid c (reconstructBmt c host fuel s).2.bmt := by
  intro i hi
  have hmem := mem_entries.mpr ⟨i, hi, rfl⟩
  rw [reconstructBmt_entries hc, mem_poolEntries] at hmem
  obtain ⟨k, hk, hmapped, hnames⟩ := hmem
  have htotal := hc.total
  have hsys := hnames.2.2.1
  exact ⟨by omega, by omega, by omega⟩

/-- After the pool was scanned the table is written with the sweep. -/
theorem reconstructBmt_calm (hc : Counts c) (hfaith : Faithful host) (hmarks : MarksWork c host)
    (fuel : ℕ) {s : St} (hindex : s.bmtBlockIndex = 0)
    (hswept : s.poolErased = false)
    (hdone : (reconstructBmt c host fuel s).1 ≠ none) :
    FreeCalm c (NoTable c) (reconstructBmt c host fuel s).2 ∧
      ((reconstructBmt c host fuel s).2.bmtBlockIndex ≠ 0 →
        InPool c (reconstructBmt c host fuel s).2.bmtBlockIndex) := by
  have hempty : MapInv c ⟨zeroTable c s.bmt, bmtVersion, 0, 0⟩ :=
    ⟨fun i hi => absurd hi (Nat.not_lt_zero i), fun i _ hi => absurd hi (Nat.not_lt_zero i)⟩
  have hscan := scanPool_spec host hc (List.range c.bmtBlockCount) List.pairwise_lt_range
    (fun i hi => List.mem_range.mp hi) { s with bmt := ⟨zeroTable c s.bmt, bmtVersion, 0, 0⟩ }
    hempty (fun i _ => isBlockMapped_none.mpr fun i hi => absurd hi (Nat.not_lt_zero i))
  unfold reconstructBmt at hdone ⊢
  dsimp only at hdone ⊢
  set t := scanPool c host (List.range c.bmtBlockCount)
    { s with bmt := ⟨zeroTable c s.bmt, bmtVersion, 0, 0⟩ }
  have hzero : t.bmtBlockIndex = 0 := hscan.index.trans hindex
  have hpos := hc.system
  have hready : TableReady c (NoTable c)
      { t with pageBuf := fillNandBmtBuffer c t.bmt (clearOob c t.pageBuf) } :=
    ⟨fun hne => absurd hzero hne,
      fun b _ => Or.inr ⟨hscan.swept.trans hswept, fun heq => by
        have heq' : t.bmtBlockIndex = c.systemBlockCount := heq
        omega⟩,
      fun hne => absurd hzero hne⟩
  have hw := writeBmtToFlash_pages hfaith noTable_blank hmarks hc fuel hready
  exact ⟨(hw.free (by simpa using hdone)).1, hw.index⟩

theorem initBmt_orderly (hfaith : Faithful host) (hmarks : MarksWork c host) {fuel : ℕ} {s s' : St}
    (h : initBmt c host fuel s = (some true, s')) (hok : BootOk c s') :
    Counts c ∧ Orderly c s' := by
  unfold initBmt at h
  by_cases hsize : 0 < c.bmtBlockCount ∧ c.bmtBlockCount < maxBmtSize
  · rw [if_pos hsize] at h
    have hc := counts_of_size hsize.1 hsize.2
    dsimp only at h
    set s0 : St := { s with poolErased := _, bmt := _, pageBuf := _ }
    have hframe := (loadBmtData_frame c host c.bmtBlockCount s0).2
    have hvalid := loadBmtData_valid host hc (Nat.le_refl c.bmtBlockCount) s0
    set r := loadBmtData c host c.bmtBlockCount s0
    have hready : EntriesValid c s'.bmt ∧ (s'.bmtBlockIndex ≠ 0 → InPool c s'.bmtBlockIndex) ∧
        ReadyCalm c (NoTable c) s' := by
      by_cases hload : r.1 ≠ 0
      · rw [if_pos hload] at h
        obtain rfl := (Prod.mk.inj h).2
        obtain ⟨hpool, hentries⟩ := hvalid hload
        refine ⟨hentries, fun _ => hpool, fun b hb => ?_⟩
        by_cases hfirst : r.1 = c.systemBlockCount
        · exact Or.inl (hok.sweep hfirst b hb)
        · exact Or.inr ⟨hframe, hfirst⟩
      · rw [if_neg hload] at h
        have hzero : r.1 = 0 := not_not.mp hload
        have hcalm := reconstructBmt_calm hc hfaith hmarks fuel
          (show ({ r.2 with bmtBlockIndex := r.1 } : St).bmtBlockIndex = 0 from hzero) hframe
          (by rw [h]; simp)
        have hentries := reconstructBmt_entriesValid hc host fuel { r.2 with bmtBlockIndex := r.1 }
        rw [h] at hcalm hentries
        exact ⟨hentries, hcalm.2, fun b hb => Or.inl (hcalm.1 b hb)⟩
    obtain ⟨hentries, hidx, hfree⟩ := hready
    exact ⟨hc, ⟨fun i hi => (hentries i hi).2, hok.distinct⟩, hentries, hidx, hok.mapped, hfree⟩
  · rw [if_neg hsize] at h
    cases h

theorem DriverStep.orderly {s : St} {flash : Flash} (h : DriverStep c s flash)
    (hs : Orderly c s) : Orderly c { s with flash := flash } where
  map := hs.map
  entries := hs.entries
  index := hs.index
  mapped := by
    intro b hb _
    rw [Calm, bad_firstPage]
    have hcase := h.mapped b hb
    rwa [bad_eq] at hcase
  free := by
    intro b hb
    have hb' : Free c s b := hb
    rcases hs.free b hb' with hcalm | hdue
    · exact Or.inl (hcalm.of_firstPage (h.unmapped b hb.1 hb.2.2))
    · exact Or.inr hdue

theorem bootRun_orderly {s : St} (h : BootRun c s) : Counts c ∧ Orderly c s := by
  induction h with
  | init host fuel s s' hmarks hfaith hinit hok => exact initBmt_orderly hfaith hmarks hinit hok
  | update host fuel offset reason dat s s' ret _ hok hupdate ih =>
    exact ⟨ih.1, (updateBmt_orderly ih.1 ih.2 hok hupdate).1⟩
  | drive flash s _ hok ih => exact ⟨ih.1, hok.orderly ih.2⟩

/-- In every run, after an update that reports success the table survives a restart. -/
theorem update_survives_restart {s : St} (hrun : BootRun c s) {fuel offset : ℕ}
    {reason : UpdateReason} {dat : Option Buf} {s' : St}
    (hok : UpdateOk c host fuel s offset reason dat)
    (hupdate : updateBmt c host fuel offset reason dat s = (some true, s')) : Survives c s' := by
  obtain ⟨hc, hs⟩ := bootRun_orderly hrun
  exact (updateBmt_orderly hc hs hok hupdate).2 rfl

/-- A controller that stores what it is given; only erases may fail. -/
def storingHost (eraseOk : ℕ → Bool) : Host where
  eraseOk _ := eraseOk
  write _ _ := .ok
  markOk _ _ := true
  scrap _ _ _ := 0
  cells _ _ buf := buf
  read _ page := (true, page)
  stack _ := 0

theorem storingHost_faithful (eraseOk : ℕ → Bool) : Faithful (storingHost eraseOk) :=
  ⟨fun _ _ _ _ _ => rfl, fun _ _ => rfl⟩

def blankFlash : Flash := ⟨fun _ _ => 0xff, fun _ => true⟩

/-- A pool of three blocks, 2045 to 2047, on a blank chip. -/
def blankBooted : St := (initBmt ⟨0, 3⟩ (storingHost fun _ => true) 3 (powerOn blankFlash)).2

/-- Block 0 was replaced by 2045. -/
def replacedOnce : St :=
  (updateBmt ⟨0, 3⟩ (storingHost fun _ => true) 3 0 .eraseFail none blankBooted).2

theorem update_survives_restart_blank : Survives ⟨0, 3⟩ replacedOnce := by
  have hmarks : MarksWork ⟨0, 3⟩ (storingHost fun _ => true) := fun _ _ _ => rfl
  have hfits : Fits ⟨0, 3⟩ := by
    unfold Fits
    decide
  have hinit :
      (initBmt ⟨0, 3⟩ (storingHost fun _ => true) 3 (powerOn blankFlash)).1 = some true := by
    decide +kernel
  have hempty : ¬0 < blankBooted.bmt.mappedCount := by decide +kernel
  have hindex : blankBooted.bmtBlockIndex ≠ Conf.systemBlockCount ⟨0, 3⟩ := by decide +kernel
  have hok : BootOk ⟨0, 3⟩ blankBooted := by
    refine ⟨fun i _ hi => absurd (Nat.zero_lt_of_lt hi) hempty, fun b hb => ?_,
      fun h => absurd h hindex⟩
    exact absurd (isBlockMapped_none.mpr fun i hi => absurd (Nat.zero_lt_of_lt hi) hempty) hb
  have hrun : BootRun ⟨0, 3⟩ blankBooted :=
    BootRun.init _ 3 (powerOn blankFlash) _ hmarks (storingHost_faithful _) (Prod.ext hinit rfl) hok
  have hdone : (updateBmt ⟨0, 3⟩ (storingHost fun _ => true) 3 0 .eraseFail none
      blankBooted).1 = some true := by decide +kernel
  have hsystem : ¬InPool ⟨0, 3⟩ (0 / Conf.blockSize ⟨0, 3⟩) :=
    fun h => absurd h.1 (by decide +kernel)
  exact update_survives_restart hrun ⟨hmarks, storingHost_faithful _, hfits,
    (fun _ _ _ _ _ h => by cases h), Or.inl hsystem, fun h => by cases h⟩ (Prod.ext hdone rfl)

/-- Block 2045 fails and the table block 2047 cannot be erased: the table moves to block
2045, which is no longer mapped, and is then marked bad with it. -/
theorem moved_table_lost :
    let r := updateBmt ⟨0, 3⟩ (storingHost fun b => b != 2047) 3 (Conf.offset ⟨0, 3⟩ 2045)
      .eraseFail none replacedOnce
    r.1 = some true ∧ ¬Survives ⟨0, 3⟩ r.2 ∧ getMappingBlockIndex ⟨0, 3⟩ r.2.bmt 0 = 2046 ∧
      getMappingBlockIndex ⟨0, 3⟩
        (initBmt ⟨0, 3⟩ (storingHost fun _ => true) 3 (powerOn r.2.flash)).2.bmt 0 = 0 := by
  dsimp only
  refine ⟨by decide +kernel, fun h => ?_, by decide +kernel, by decide +kernel⟩
  exact absurd h.good (by decide +kernel)

end Iot7688.Bmt
