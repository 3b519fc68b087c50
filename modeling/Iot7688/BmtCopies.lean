import Iot7688.BmtUpdate

/-!
Runs of update_bmt for pages that could not be written. migrate_from_bad gives the replacement
its copy of the mapping. It is missing or wrong when the mark at the end of update_bmt does not
reach the first page of the failing block, when that page is neither rewritten nor copied, when
a replacement fails in its own first page, and when the last page that was copied leaves its
index in the buffer for the page of the table.
-/
namespace Iot7688.Bmt

section

variable (c : Conf)

/-- Block l of the system part is served by block b, which fails: b itself, when it has no
entry yet, or the block that is mapped to b. -/
def Origin (bmt : BmtStruct) (b l : ℕ) : Prop :=
  if b < c.systemBlockCount then l = b ∧ ∀ n, ¬Maps bmt b n else Maps bmt l b

/-- The failing block gets a copy: its first page is the one that failed, or it is copied,
and it has the index already when the block is one of the pool. -/
def CopyWritten (s : St) (b e : ℕ) : Prop :=
  if b < c.systemBlockCount then e = 0 ∨ isPageUsed c (firstPage c s b) = true else e ≠ 0

/-- What the migration leaves of the last page in oob_buf does not go to the page of the
table, or names no block; pages of 512 bytes have the last entries of the table there. -/
def TableUnnamed (s : St) (b e : ℕ) : Prop :=
  if c.isNandPage2048 then
    ∀ p, IsLastOther c e p → NamesNone c (copied c b (blockPage c s b p))
  else c.bmtBlockCount < 127

/-- The condition on one call of update_bmt. -/
structure CopyOk (host : Host) (s : St) (offset : ℕ) : Prop where
  marks : MarksWork c host
  faithful : Faithful host
  origin : ∃ l, Origin c s.bmt (offset / c.blockSize) l
  copy : CopyWritten c s (offset / c.blockSize) (offset / c.pageSize % c.pagePerBlock)
  mark : bad c s.flash (offset / c.blockSize) = true ∨
    FirstPage c offset ∧ ∀ tick, host.markOk tick (offset / c.blockSize * c.pagePerBlock) = true
  others : ∀ b n, Maps s.bmt b n → n ≠ offset / c.blockSize → bad c s.flash n = false
  table : TableUnnamed c s (offset / c.blockSize) (offset / c.pageSize % c.pagePerBlock)

def ErasedPage (page : Buf) : Prop := SamePage c page fun _ => 0xff

/-- An empty table and an erased pool; only the first pages are looked at. -/
structure ErasedStart (s : St) : Prop where
  empty : s.bmt.mappedCount = 0
  index : s.bmtBlockIndex ≠ 0 → InPool c s.bmtBlockIndex
  erased : ∀ b, InPool c b → b ≠ s.bmtBlockIndex →
    bad c s.flash b = true ∨ ErasedPage c (firstPage c s b)
  table : s.bmtBlockIndex ≠ 0 → Calm c (NamesNone c) s s.bmtBlockIndex

/-- What the driver does between calls: it uses the blocks of the system part and the mapped
blocks, keeps the index bytes of these and clears no bad block mark of the others. -/
structure DriverKeeps (s : St) (flash : Flash) : Prop where
  unmapped : ∀ n, InPool c n → isBlockMapped s.bmt n = none →
    flash.page (n * c.pagePerBlock) = s.flash.page (n * c.pagePerBlock)
  named : ∀ b n, Maps s.bmt b n → getBadIndexFromOob c (flash.page (n * c.pagePerBlock)) =
    getBadIndexFromOob c (s.flash.page (n * c.pagePerBlock))
  marked : ∀ b n, Maps s.bmt b n → bad c s.flash b = true → bad c flash b = true

/-- The states after calls of update_bmt for pages that could not be written, all of them
successful. -/
inductive MigrationRun : St → Prop
  | start (s : St) (hstart : ErasedStart c s) : MigrationRun s
  | update (host : Host) (fuel offset : ℕ) (dat : Option Buf) (flash : Flash) (s s' : St)
      (hrun : MigrationRun s) (hdrive : DriverKeeps c s flash)
      (hok : CopyOk c host { s with flash := flash } offset)
      (hupdate : updateBmt c host fuel offset .writeFail dat { s with flash := flash } =
        (some true, s')) : MigrationRun s'

end

variable {c : Conf} {host : Host}

theorem erasedPage_blank : ErasedPage c fun _ => 0xff := SamePage.refl _

theorem Origin.system {bmt : BmtStruct} (h : TableInv c bmt) {b l : ℕ}
    (horigin : Origin c bmt b l) : l < c.systemBlockCount := by
  unfold Origin at horigin
  split at horigin
  · rwa [horigin.1]
  · exact h.maps_system horigin

theorem Origin.kept {s : St} {b l : ℕ} (horigin : Origin c s.bmt b l) : Kept c s b := by
  unfold Origin at horigin
  split at horigin
  · exact Or.inl ‹_›
  · exact Or.inr (Or.inl (isBlockMapped_iff.mpr ⟨l, horigin⟩))

/-- The change maps the block that was served to the replacement, and takes the failing block
out of the table. -/
theorem maps_updateTable (hc : Counts c) {bmt : BmtStruct} (h : TableInv c bmt) {b l n : ℕ}
    (hn : InPool c n) (hfree : isBlockMapped bmt n = none) (horigin : Origin c bmt b l) {x m : ℕ} :
    Maps (updateTable c bmt b n) x m ↔ x = l ∧ m = n ∨ Maps bmt x m ∧ m ≠ b := by
  have hindex := hc.index
  have htotal := hc.total
  have hn16 : n < 2 ^ 16 := lt_of_lt_of_le hn.2 hc.index
  unfold Origin at horigin
  rw [updateTable_eq]
  split at horigin
  · rename_i hb
    obtain ⟨rfl, hnew⟩ := horigin
    have hcount := count_lt hc h.toMapInv hn hfree
    have hsize := hc.size
    unfold maxBmtSize at hsize
    rw [if_neg (not_le.mpr hb), maps_iff_mem, entries_append (by omega) hn16 (by omega),
      List.mem_append, List.mem_singleton, BmtEntry.mk.injEq, ← maps_iff_mem, or_comm]
    refine or_congr_right ⟨fun hm => ⟨hm, ?_⟩, fun hm => hm.1⟩
    have hlow := (h.maps_pool hm).1
    omega
  · rename_i hb
    obtain ⟨i, hi, hil, hib⟩ := horigin
    have hmapped : isBlockMapped bmt b ≠ none := isBlockMapped_iff.mpr ⟨l, i, hi, hil, hib⟩
    obtain ⟨j, hfind, hj, hjb⟩ := find_mapped hc h.toMapInv hmapped
    obtain rfl := h.inj i j hi hj (hib.trans hjb.symm)
    rw [if_pos (not_lt.mp hb), updatedEntry, if_pos (not_lt.mp hb), hfind, Option.getD_some]
    constructor
    · rintro ⟨k, hk, hkx, hkm⟩
      rw [setMapped_badIndex] at hkx
      rw [setMapped_table bmt i hn16] at hkm
      by_cases hki : k = i
      · rw [if_pos hki] at hkm
        rw [hki] at hkx
        exact Or.inl ⟨hkx.symm.trans hil, hkm.symm⟩
      · rw [if_neg hki] at hkm
        refine Or.inr ⟨⟨k, hk, hkx, hkm⟩, fun hmb => hki ?_⟩
        exact h.inj k i hk hi (hkm.trans (hmb.trans hib.symm))
    · rintro (⟨rfl, rfl⟩ | ⟨⟨k, hk, hkx, hkm⟩, hmb⟩)
      · refine ⟨i, hi, ?_, ?_⟩
        · rw [setMapped_badIndex, hil]
        · rw [setMapped_table bmt i hn16, if_pos rfl]
      · have hki : k ≠ i := fun hki => hmb (hkm.symm.trans (hki ▸ hib))
        refine ⟨k, hk, ?_, ?_⟩
        · rw [setMapped_badIndex, hkx]
        · rw [setMapped_table bmt i hn16, if_neg hki, hkm]

/-- The replacement is good and holds a copy of its mapping. -/
theorem Landed.named {Q : Buf → Prop} (h0 : 0 < c.bmtBlockCount) (hc : Counts c) {b e l n : ℕ}
    {dat : Option Buf} {s t : St} (h : Landed c Q b e dat n s t) (hs : Noted c s)
    (horigin : Origin c s.bmt b l) (hcopy : CopyWritten c s b e) :
    bad c t.flash n = false ∧ getBadIndexFromOob c (firstPage c t n) = l := by
  have himage {page : Buf} (hsame : SamePage c (firstPage c t n) page)
      (hmark : page (badPos c) = 0xff) (hindex : getBadIndexFromOob c page = l) :
      bad c t.flash n = false ∧ getBadIndexFromOob c (firstPage c t n) = l := by
    rw [bad_firstPage, hsame _ badPos_lt, hmark, getBadIndexFromOob_congr hsame]
    exact ⟨rfl, hindex⟩
  have hcopied : getBadIndexFromOob c (copyPage c b (firstPage c s b)) = l := by
    rw [getBadIndexFromOob_copyPage hc]
    unfold Origin at horigin
    split at horigin
    · rw [if_pos ‹_›, horigin.1]
    · rw [if_neg ‹_›, hs.named l b horigin]
  by_cases hmoves : MovesFirst c b e s
  · exact himage (h.copy hmoves) (copyPage_mark b _) hcopied
  · unfold CopyWritten at hcopy
    unfold Origin at horigin
    split at horigin
    · rename_i hb
      rw [if_pos hb] at hcopy
      have he : e = 0 := by
        by_contra he
        exact hmoves ⟨Ne.symm he, hcopy.resolve_left he⟩
      obtain ⟨d, _, hd⟩ := h.image he
      exact himage hd (errorPageImage_mark b d)
        ((getBadIndexFromOob_image hc hb d).trans horigin.1.symm)
    · rename_i hb
      rw [if_neg hb] at hcopy
      refine absurd ⟨hcopy.symm, isPageUsed_of_named h0 hc ?_⟩ hmoves
      rw [hs.named l b horigin]
      exact hs.maps_system horigin

theorem exists_lastOther (c : Conf) (e : ℕ) : ∃ p, IsLastOther c e p := by
  have hpages : 2 ≤ c.pagePerBlock := by
    unfold Conf.pagePerBlock Conf.numpagePerBlockBit
    split <;> decide
  by_cases he : e = c.pagePerBlock - 1
  · exact ⟨c.pagePerBlock - 2, by omega, by omega, fun q _ _ => by omega⟩
  · exact ⟨c.pagePerBlock - 1, by omega, by omega, fun q _ _ => by omega⟩

/-- Between the halves of update_bmt: block n has a copy of the mapping of l. -/
structure CopyMade (c : Conf) (l n : ℕ) (s t : St) : Prop where
  bmt : t.bmt = s.bmt
  index : t.bmtBlockIndex = s.bmtBlockIndex
  swept : t.poolErased = true
  kept : ∀ p, Kept c s (p / c.pagePerBlock) → t.flash.page p = s.flash.page p
  free : Free c s n
  good : bad c t.flash n = false
  named : getBadIndexFromOob c (firstPage c t n) = l
  calm : ∀ x, x ≠ n → Free c s x → Calm c (NamesNone c) t x
  buffer : if c.isNandPage2048 then NamesNone c t.pageBuf else c.bmtBlockCount < 127

theorem migrateFromBad_copyMade (h0 : 0 < c.bmtBlockCount) (hc : Counts c) {fuel offset : ℕ}
    {dat : Option Buf} {l n : ℕ} {s t : St} (h : Noted c s) (hok : CopyOk c host s offset)
    (horigin : Origin c s.bmt (offset / c.blockSize) l) (hn : n ≠ 0)
    (hrun : migrateFromBad c host fuel offset dat s = (some n, t)) : CopyMade c l n s t := by
  have hm := migrateFromBad_pages hok.faithful (namesNone_blank h0 hc) hok.marks hc fuel dat h.free
    horigin.kept
  rw [hrun] at hm
  obtain ⟨hswept, hcalm, hland⟩ := hm.done n rfl
  obtain ⟨hfree, hlanded⟩ := hland hn
  obtain ⟨hgood, hnamed⟩ := hlanded.named h0 hc h horigin hok.copy
  refine ⟨hm.bmt, hm.index, hswept, hm.kept, hfree, hgood, hnamed, hcalm, ?_⟩
  have htable := hok.table
  unfold TableUnnamed at htable
  split at htable
  · obtain ⟨p, hp⟩ := exists_lastOther c (offset / c.pageSize % c.pagePerBlock)
    have hleft : SamePage c t.pageBuf _ := hlanded.left p hp
    rw [if_pos ‹_›, NamesNone, getBadIndexFromOob_congr hleft]
    exact htable p hp
  · rwa [if_neg ‹_›]

/-- The write of the table may begin. -/
theorem CopyMade.tableReady (hc : Counts c) {b l n : ℕ} {s t : St} (h : CopyMade c l n s t)
    (hs : Noted c s) (horigin : Origin c s.bmt b l)
    (hmark : c.systemBlockCount ≤ b → bad c s.flash b = true) :
    TableReady c (NamesNone c) (changed c b n t) where
  index := by
    show t.bmtBlockIndex ≠ 0 → InPool c t.bmtBlockIndex
    rw [h.index]
    exact hs.index
  free := by
    intro x hx
    left
    obtain ⟨hpool, hidx, hfree⟩ := hx
    have hfree' : isBlockMapped (updateTable c s.bmt b n) x = none := by
      rw [← h.bmt]
      exact hfree
    have hmaps {y : ℕ} : ¬Maps (updateTable c s.bmt b n) y x := fun hm =>
      isBlockMapped_iff.mpr ⟨y, hm⟩ hfree'
    have htable (y : ℕ) := maps_updateTable (x := y) (m := x) hc hs.toTableInv h.free.1 h.free.2.2
      horigin
    have hxn : x ≠ n := fun hxn => hmaps ((htable l).mpr (Or.inl ⟨rfl, hxn⟩))
    by_cases hold : isBlockMapped s.bmt x = none
    · exact h.calm x hxn ⟨hpool, h.index ▸ hidx, hold⟩
    · -- only the failing block has lost its mapping
      obtain ⟨y, hy⟩ := isBlockMapped_iff.mp hold
      obtain rfl : x = b := by
        by_contra hxb
        exact hmaps ((htable y).mpr (Or.inr ⟨hy, hxb⟩))
      exact Or.inl (bad_of_kept h.kept (hmark hpool.1))
  swept := fun _ => h.swept

theorem firstPage_iff (offset : ℕ) :
    FirstPage c offset ↔ offset / c.pageSize % c.pagePerBlock = 0 := by
  have hblock : offset / c.blockSize = offset / c.pageSize / c.pagePerBlock := by
    rw [blockSize_eq, Nat.mul_comm, Nat.div_div_eq_div_mul]
  have hpage : offset >>> c.pageSizeBit = offset / c.pageSize := Nat.shiftRight_eq_div_pow _ _
  have hdiv := Nat.div_add_mod' (offset / c.pageSize) c.pagePerBlock
  rw [FirstPage, hpage, hblock]
  omega

/-- A replacement that fails is marked already; update_bmt does not mark its first page. -/
theorem CopyOk.bad_pool {offset : ℕ} {s : St} (hok : CopyOk c host s offset)
    (hpool : c.systemBlockCount ≤ offset / c.blockSize) :
    bad c s.flash (offset / c.blockSize) = true := by
  have hcopy := hok.copy
  rw [CopyWritten, if_neg (not_lt.mpr hpool)] at hcopy
  exact hok.mark.resolve_right fun hfirst => hcopy ((firstPage_iff offset).mp hfirst.1)

theorem CopyMade.ne {b l n : ℕ} {s t : St} (h : CopyMade c l n s t)
    (horigin : Origin c s.bmt b l) : n ≠ b := by
  rintro rfl
  obtain ⟨hpool, _, hfree⟩ := h.free
  unfold Origin at horigin
  split at horigin
  · have hlow := hpool.1
    omega
  · exact isBlockMapped_iff.mpr ⟨l, horigin⟩ hfree

/-- After the second half of update_bmt. -/
structure CopyStored (c : Conf) (b l n : ℕ) (s t s' : St) : Prop where
  bmt : s'.bmt = updateTable c s.bmt b n
  pool : InPool c s'.bmtBlockIndex
  place : s'.bmtBlockIndex = s.bmtBlockIndex ∨ isBlockMapped s'.bmt s'.bmtBlockIndex = none
  table : Calm c (NamesNone c) s' s'.bmtBlockIndex
  calm : FreeCalm c (NamesNone c) s'
  bads : ∀ x, x < c.systemBlockCount → bad c s.flash x = true → bad c s'.flash x = true
  marked : bad c s'.flash l = true
  mapped : ∀ m, isBlockMapped s'.bmt m ≠ none → m ≠ b → m ≠ s.bmtBlockIndex →
    firstPage c s' m = firstPage c t m

theorem CopyMade.stored (h0 : 0 < c.bmtBlockCount) (hc : Counts c) {fuel offset l n : ℕ}
    {s t s' : St} (h : CopyMade c l n s t) (hs : Noted c s) (hok : CopyOk c host s offset)
    (horigin : Origin c s.bmt (offset / c.blockSize) l)
    (hstore : store c host fuel offset (changed c (offset / c.blockSize) n t) = (some true, s')) :
    CopyStored c (offset / c.blockSize) l n s t s' := by
  set b := offset / c.blockSize with hbdef
  have hready := h.tableReady hc hs horigin hok.bad_pool
  have hw := writeBmtToFlash_pages hok.faithful (namesNone_blank h0 hc) hok.marks hc fuel hready
  set u := changed c b n t
  have hbmt : u.bmt = updateTable c s.bmt b n := by
    rw [← h.bmt]
    rfl
  have hidx : u.bmtBlockIndex = s.bmtBlockIndex := h.index
  unfold store at hstore
  dsimp only at hstore
  have hdone : (writeBmtToFlash c host fuel u).1 = some true := by
    by_contra hno
    rw [if_neg hno] at hstore
    exact hno (by rw [hstore])
  rw [if_pos hdone] at hstore
  obtain rfl := (Prod.mk.inj hstore).2
  obtain ⟨hpool, hplace, hpage, _⟩ := hw.done hdone
  obtain ⟨hcalm, _⟩ := hw.free (by simp [hdone])
  set w := (writeBmtToFlash c host fuel u).2
  have honly : OnlyPages c b w (markBlockBadBmt c host offset w) := markBlockBadBmt_pages offset w
  set s' := markBlockBadBmt c host offset w
  have hbmt' : s'.bmt = u.bmt := honly.bmt.trans hw.bmt
  have hbads : ∀ x, x < c.systemBlockCount → bad c s.flash x = true → bad c s'.flash x = true := by
    intro x hx hbad
    refine markBlockBadBmt_keeps ?_
    have hbad' : bad c t.flash x = true := bad_of_kept h.kept hbad
    have hkept := hw.kept (x * c.pagePerBlock) (Or.inl (by rwa [page_block])) fun hne => by
      have hlow := (hready.index hne).1
      rw [page_block]
      omega
    rw [bad_eq] at hbad' ⊢
    rwa [hkept]
  refine ⟨hbmt'.trans hbmt, honly.index ▸ hpool, ?_, ?_, fun x hx => ?_, hbads, ?_,
    fun m hm hmb hmidx => ?_⟩
  · rw [honly.index, hbmt', ← hidx]
    exact hplace.imp_right And.right
  · rw [honly.index]
    refine markBlockBadBmt_calm hok.marks hpool (Or.inr ?_)
    have himage : NamesNone c u.pageBuf := image_namesNone h0 hc _ h.buffer
    rcases hpage with hsame | hspoiled
    · rwa [hsame]
    · rw [hspoiled, NamesNone, spoiled, getBadIndexFromOob_update]
      exact himage
  · exact markBlockBadBmt_calm hok.marks hx.1 (hcalm x (honly.free.mp hx))
  · -- a block of the system part is marked now, if it was not; others were marked before
    have hl := horigin.system hs.toTableInv
    unfold Origin at horigin
    split at horigin
    · rw [horigin.1]
      rcases hok.mark with hbad | ⟨hfirst, hmarkOk⟩
      · exact hbads b ‹_› hbad
      · exact markBlockBadBmt_bad hfirst (hmarkOk _)
    · exact hbads l hl (hs.marked l b horigin)
  · rw [honly.first hmb]
    refine hw.kept _ (Or.inr (Or.inl ?_)) fun _ => ?_
    · rwa [page_block, ← hbmt']
    · rwa [page_block, hidx]

theorem CopyStored.settled (hc : Counts c) {b l n : ℕ} {s t s' : St}
    (h : CopyStored c b l n s t s') (hmade : CopyMade c l n s t) (hs : Noted c s)
    (horigin : Origin c s.bmt b l)
    (hgood : ∀ x m, Maps s.bmt x m → m ≠ b → bad c s.flash m = false) : Settled c s' := by
  obtain ⟨hnpool, hnidx, hnfree⟩ := hmade.free
  have hmaps {x m : ℕ} : Maps s'.bmt x m ↔ x = l ∧ m = n ∨ Maps s.bmt x m ∧ m ≠ b := by
    rw [h.bmt]
    exact maps_updateTable hc hs.toTableInv hnpool hnfree horigin
  have hinv : TableInv c s'.bmt := by
    rw [h.bmt]
    refine (updateTable_tableInv_iff hc hs.toTableInv hnpool hnfree b).mpr fun hb i hi heq => ?_
    rw [Origin, if_pos hb] at horigin
    exact horigin.2 _ ⟨i, hi, heq, rfl⟩
  have hnew : firstPage c s' n = firstPage c t n :=
    h.mapped n (isBlockMapped_iff.mpr ⟨l, hmaps.mpr (Or.inl ⟨rfl, rfl⟩)⟩) (hmade.ne horigin) hnidx
  have hold {x m : ℕ} (hm : Maps s.bmt x m) (hmb : m ≠ b) :
      firstPage c s' m = firstPage c s m := by
    rw [h.mapped m (isBlockMapped_iff.mpr ⟨x, hmaps.mpr (Or.inr ⟨hm, hmb⟩)⟩) hmb (hs.apart x m hm)]
    exact hmade.kept _ (Or.inr (Or.inl (by rw [page_block]; exact isBlockMapped_iff.mpr ⟨x, hm⟩)))
  refine ⟨⟨hinv, ?_, ?_, ?_, fun _ => h.pool, fun x hx => Or.inl (h.calm x hx)⟩, ?_,
    fun _ => h.table, h.calm⟩
  · intro x m hm
    rcases hmaps.mp hm with ⟨rfl, _⟩ | ⟨hm, _⟩
    · exact h.marked
    · exact h.bads x (hs.maps_system hm) (hs.marked x m hm)
  · intro x m hm
    rcases hmaps.mp hm with ⟨rfl, rfl⟩ | ⟨hm, hmb⟩
    · rw [hnew, hmade.named]
    · rw [hold hm hmb, hs.named x m hm]
  · intro x m hm
    rcases h.place with hsame | hfree
    · rw [hsame]
      rcases hmaps.mp hm with ⟨_, rfl⟩ | ⟨hm, _⟩
      · exact hnidx
      · exact hs.apart x m hm
    · rintro rfl
      exact isBlockMapped_iff.mpr ⟨x, hm⟩ hfree
  · intro x m hm
    rw [bad_firstPage]
    rcases hmaps.mp hm with ⟨_, rfl⟩ | ⟨hm, hmb⟩
    · rw [hnew, ← bad_firstPage, hmade.good]
    · rw [hold hm hmb, ← bad_firstPage, hgood x m hm hmb]

theorem updateBmt_settled (h0 : 0 < c.bmtBlockCount) (hc : Counts c) {fuel offset : ℕ}
    {dat : Option Buf} {s s' : St} (hs : Noted c s) (hok : CopyOk c host s offset)
    (hupdate : updateBmt c host fuel offset .writeFail dat s = (some true, s')) :
    Settled c s' := by
  obtain ⟨l, horigin⟩ := hok.origin
  have hreplace : replace c host fuel offset .writeFail dat s =
      migrateFromBad c host fuel offset dat s := if_pos rfl
  rw [updateBmt_eq, hreplace] at hupdate
  cases hm : migrateFromBad c host fuel offset dat s with
  | mk m t =>
    rw [hm] at hupdate
    cases m with
    | none => cases hupdate
    | some n =>
      dsimp only at hupdate
      by_cases hn : n = 0
      · rw [if_pos hn] at hupdate
        cases hupdate
      · rw [if_neg hn] at hupdate
        have hmade := migrateFromBad_copyMade h0 hc hs hok horigin hn hm
        exact (hmade.stored h0 hc hs hok horigin hupdate).settled hc hmade hs horigin hok.others

theorem ErasedStart.settled (h0 : 0 < c.bmtBlockCount) (hc : Counts c) {s : St}
    (h : ErasedStart c s) : Settled c s := by
  have hempty : ∀ i, ¬i < s.bmt.mappedCount := by
    rw [h.empty]
    exact fun i => Nat.not_lt_zero i
  have hmaps {b n : ℕ} : ¬Maps s.bmt b n := fun ⟨i, hi, _⟩ => hempty i hi
  have hcalm : FreeCalm c (NamesNone c) s := by
    intro b hb
    refine (h.erased b hb.1 hb.2.1).imp_right fun hblank => ?_
    rw [NamesNone, getBadIndexFromOob_congr hblank]
    exact namesNone_blank h0 hc
  exact ⟨⟨⟨⟨fun i hi => absurd hi (hempty i), fun i _ hi => absurd hi (hempty i)⟩, by
      rw [h.empty]
      exact Nat.zero_le _, fun i hi => absurd hi (hempty i), fun i _ hi => absurd hi (hempty i)⟩,
    fun _ _ hm => absurd hm hmaps, fun _ _ hm => absurd hm hmaps, fun _ _ hm => absurd hm hmaps,
    h.index, fun b hb => Or.inl (hcalm b hb)⟩, fun _ _ hm => absurd hm hmaps, h.table, hcalm⟩

theorem DriverKeeps.noted {s : St} {flash : Flash} (h : DriverKeeps c s flash)
    (hs : Settled c s) : Noted c { s with flash := flash } where
  toTableInv := hs.toTableInv
  marked := fun b n hm => h.marked b n hm (hs.marked b n hm)
  named := fun b n hm => (h.named b n hm).trans (hs.named b n hm)
  apart := hs.apart
  index := hs.index
  free := fun b hb => Or.inl ((hs.calm b hb).of_firstPage (h.unmapped b hb.1 hb.2.2))

theorem migrationRun_settled (h0 : 0 < c.bmtBlockCount) (hc : Counts c) {s : St}
    (h : MigrationRun c s) : Settled c s := by
  induction h with
  | start s hstart => exact hstart.settled h0 hc
  | update host fuel offset dat flash s s' _ hdrive hok hupdate ih =>
    exact updateBmt_settled h0 hc (hdrive.noted ih) hok hupdate

/-- No block of the pool shows a table. -/
theorem loadBmtData_erased (hfaith : Faithful host) (n : ℕ) (s : St)
    (h : ∀ i, i < n → bad c s.flash (c.systemBlockCount + i) = true ∨
      ErasedPage c (firstPage c s (c.systemBlockCount + i))) :
    (loadBmtData c host n s).1 = 0 ∧ (loadBmtData c host n s).2.flash = s.flash := by
  induction n generalizing s with
  | zero => exact ⟨rfl, rfl⟩
  | succ n ih =>
    have hrest : ∀ i, i < n → _ := fun i hi => h i (by omega)
    rw [loadBmtData_succ]
    by_cases hbad : bad c s.flash (c.systemBlockCount + n) = true
    · rw [if_pos hbad]
      exact ih s hrest
    · rw [if_neg hbad]
      have hsize := (show 512 ≤ c.pageSize from pageSize_ge)
      have hblank := (h n (Nat.lt_succ_self n)).resolve_left hbad
      have hbyte : (nandReadPageBmt c host (c.pageAddr (c.systemBlockCount + n)) s).2.pageBuf 0 =
          0xff := by
        rw [nandReadPageBmt_pageBuf hfaith _ _ (by omega), pageAddr_eq]
        exact hblank 0 (by omega)
      have hno : matchBmtSignature
          (nandReadPageBmt c host (c.pageAddr (c.systemBlockCount + n)) s).2.pageBuf = false := by
        unfold matchBmtSignature
        rw [hbyte]
        rfl
      dsimp only
      rw [hno, Bool.and_false, Bool.false_and, if_neg (by decide)]
      exact ih _ hrest

/-- The scan of an erased pool leaves an erased page in the buffer, if there is a block to
read. -/
theorem scanPool_erased (h0 : 0 < c.bmtBlockCount) (hc : Counts c) (hfaith : Faithful host)
    (is : List ℕ) (s : St)
    (h : ∀ i ∈ is, bad c s.flash (c.systemBlockCount + i) = true ∨
      ErasedPage c (firstPage c s (c.systemBlockCount + i)))
    (hread : ErasedPage c s.pageBuf ∨
      ∃ i ∈ is, bad c s.flash (c.systemBlockCount + i) = false) :
    ErasedPage c (scanPool c host is s).pageBuf := by
  induction is generalizing s with
  | nil =>
    rcases hread with hbuf | ⟨i, hi, _⟩
    · exact hbuf
    · exact absurd hi List.not_mem_nil
  | cons i is ih =>
    have hrest : ∀ j ∈ is, _ := fun j hj => h j (List.mem_cons_of_mem _ hj)
    rw [scanPool]
    dsimp only
    by_cases hbad : nandBlockBadBmt c s.flash (c.offset (c.systemBlockCount + i)) = true
    · rw [if_pos hbad]
      refine ih s hrest ?_
      rcases hread with hbuf | ⟨j, hj, hgood⟩
      · exact Or.inl hbuf
      · rcases List.mem_cons.mp hj with rfl | hj
        · exact absurd (hbad.symm.trans hgood) (by decide)
        · exact Or.inr ⟨j, hj, hgood⟩
    · rw [if_neg hbad]
      have hblank := (h i List.mem_cons_self).resolve_left hbad
      have hbuf : ErasedPage c
          (nandReadPageBmt c host (c.pageAddr (c.systemBlockCount + i)) s).2.pageBuf := by
        intro k hk
        rw [nandReadPageBmt_pageBuf hfaith _ _ hk, pageAddr_eq]
        exact hblank k hk
      have hnone : c.systemBlockCount ≤ _ := namesNone_blank h0 hc
      rw [getBadIndexFromOob_congr hbuf, if_pos hnone]
      exact ih _ hrest (Or.inl hbuf)

/-- reconstruct_bmt finds nothing in an erased pool, and stores an empty table. -/
theorem reconstructBmt_erased (h0 : 0 < c.bmtBlockCount) (hc : Counts c) (hfaith : Faithful host)
    (hmarks : MarksWork c host) {fuel : ℕ} {s s' : St}
    (hpages : c.isNandPage2048 = true ∨ c.bmtBlockCount < 127) (hindex : s.bmtBlockIndex = 0)
    (h : ∀ i ∈ List.range c.bmtBlockCount, bad c s.flash (c.systemBlockCount + i) = true ∨
      ErasedPage c (firstPage c s (c.systemBlockCount + i)))
    (hdone : reconstructBmt c host fuel s = (some true, s')) : ErasedStart c s' := by
  have htotal := hc.total
  have hentries := reconstructBmt_entries hc host fuel s
  rw [hdone] at hentries
  have hnone : poolEntries c host s c.bmtBlockCount = [] := by
    refine List.eq_nil_iff_forall_not_mem.mpr fun e he => ?_
    obtain ⟨k, hk, _, hgood, hname, hsys, _⟩ := mem_poolEntries.mp he
    have hblank := (h k (List.mem_range.mpr hk)).resolve_left (by simp [hgood])
    rw [oobIndex, hfaith.reads, pageAddr_eq] at hname
    have hindex' := getBadIndexFromOob_congr hblank
    have hblank' := namesNone_blank h0 hc
    unfold firstPage at hindex'
    rw [NamesNone, ← hindex', hname] at hblank'
    omega
  have hempty : s'.bmt.mappedCount = 0 := by
    have hlen := congrArg List.length (hentries.trans hnone)
    simpa [BmtStruct.entries] using hlen
  have hscan := scanPool_spec host hc (List.range c.bmtBlockCount) List.pairwise_lt_range
    (fun i hi => List.mem_range.mp hi) { s with bmt := ⟨zeroTable c s.bmt, bmtVersion, 0, 0⟩ }
    ⟨fun i hi => absurd hi (Nat.not_lt_zero i), fun i _ hi => absurd hi (Nat.not_lt_zero i)⟩
    (fun i _ => isBlockMapped_none.mpr fun i hi => absurd hi (Nat.not_lt_zero i))
  have hbuf := scanPool_erased h0 hc hfaith (List.range c.bmtBlockCount)
    { s with bmt := ⟨zeroTable c s.bmt, bmtVersion, 0, 0⟩ } h
  have hflash := (scanPool_whole hc host s).flash
  unfold reconstructBmt at hdone
  dsimp only at hdone
  set t := scanPool c host (List.range c.bmtBlockCount)
    { s with bmt := ⟨zeroTable c s.bmt, bmtVersion, 0, 0⟩ } with ht
  have hzero : t.bmtBlockIndex = 0 := hscan.index.trans hindex
  set u : St := { t with pageBuf := fillNandBmtBuffer c t.bmt (clearOob c t.pageBuf) }
  have hready : TableReady c (ErasedPage c) u := by
    refine ⟨fun hne => absurd hzero hne, fun b hb => Or.inl ?_, fun hne => absurd hzero hne⟩
    obtain ⟨k, rfl⟩ := Nat.exists_eq_add_of_le hb.1.1
    have hhigh := hb.1.2
    have hcalm := h k (List.mem_range.mpr (by omega))
    rw [firstPage, ← hflash] at hcalm
    exact hcalm
  have hw := writeBmtToFlash_pages hfaith erasedPage_blank hmarks hc fuel hready
  have hfailed : (writeBmtToFlash c host fuel u).1 = some false →
      (writeBmtToFlash c host fuel u).2.bmtBlockIndex = 0 := writeBmtToFlash_failed
  obtain ⟨hret, rfl⟩ := Prod.mk.inj hdone
  set w := writeBmtToFlash c host fuel u
  have hunmapped (b : ℕ) : isBlockMapped w.2.bmt b = none := by
    rw [isBlockMapped_none, hempty]
    exact fun i hi => absurd hi (Nat.not_lt_zero i)
  refine ⟨hempty, hw.index, fun b hb hne => ?_, fun hne => ?_⟩
  · exact (hw.free fun hno => by simp [hno] at hret).1 b ⟨hb, hne, hunmapped b⟩
  · have hstored : w.1 = some true := by
      cases hres : w.1 with
      | none => simp [hres] at hret
      | some done =>
        cases done with
        | true => rfl
        | false => exact absurd (hfailed hres) hne
    obtain ⟨hpool, hplace, hpage, _⟩ := hw.done hstored
    have himage : NamesNone c u.pageBuf := by
      refine image_namesNone h0 hc _ ?_
      split
      · -- the block that took the table is one that the scan has read
        have hgood : bad c t.flash w.2.bmtBlockIndex = false :=
          (hplace.resolve_left fun hsame => hne (hsame.trans hzero)).1
        obtain ⟨k, hk⟩ := Nat.exists_eq_add_of_le hpool.1
        have hhigh := hpool.2
        rw [hk, hflash] at hgood
        have hblank := hbuf (Or.inr ⟨k, List.mem_range.mpr (by omega), hgood⟩)
        rw [NamesNone, getBadIndexFromOob_congr hblank]
        exact namesNone_blank h0 hc
      · exact hpages.resolve_left ‹_›
    right
    rcases hpage with hsame | hspoiled
    · rwa [hsame]
    · rw [hspoiled, NamesNone, spoiled, getBadIndexFromOob_update]
      exact himage

/-- init_bmt on a chip with an erased pool ends in a state from which a run may start. -/
theorem initBmt_erased (hfaith : Faithful host) (hmarks : MarksWork c host) {fuel : ℕ} {s s' : St}
    (hpages : c.isNandPage2048 = true ∨ c.bmtBlockCount < 127)
    (h : ∀ b, InPool c b → bad c s.flash b = true ∨ ErasedPage c (firstPage c s b))
    (hinit : initBmt c host fuel s = (some true, s')) : ErasedStart c s' := by
  unfold initBmt at hinit
  by_cases hsize : 0 < c.bmtBlockCount ∧ c.bmtBlockCount < maxBmtSize
  · rw [if_pos hsize] at hinit
    have hc := counts_of_size hsize.1 hsize.2
    have htotal := hc.total
    dsimp only at hinit
    set s0 : St := { s with poolErased := _, bmt := _, pageBuf := _ } with hs0
    have hpool : ∀ i, i < c.bmtBlockCount → bad c s.flash (c.systemBlockCount + i) = true ∨
        ErasedPage c (firstPage c s (c.systemBlockCount + i)) :=
      fun i hi => h _ ⟨Nat.le_add_right _ _, by omega⟩
    obtain ⟨hload, hflash⟩ := loadBmtData_erased hfaith c.bmtBlockCount s0 hpool
    set r := loadBmtData c host c.bmtBlockCount s0
    rw [if_neg (not_not.mpr hload)] at hinit
    set s1 : St := { r.2 with bmtBlockIndex := r.1 } with hs1
    have hpool1 : ∀ i ∈ List.range c.bmtBlockCount,
        bad c s1.flash (c.systemBlockCount + i) = true ∨
          ErasedPage c (firstPage c s1 (c.systemBlockCount + i)) := by
      intro i hi
      have hflash1 : s1.flash = s.flash := hflash
      rw [firstPage, hflash1]
      exact hpool i (List.mem_range.mp hi)
    have hindex : s1.bmtBlockIndex = 0 := hload
    exact reconstructBmt_erased hsize.1 hc hfaith hmarks hpages hindex hpool1 hinit
  · rw [if_neg hsize] at hinit
    cases hinit

/-- In every run reconstruct_bmt collects the table that was lost. -/
theorem reconstruct_bmt_agrees (h0 : 0 < c.bmtBlockCount) (hsize : c.bmtBlockCount < maxBmtSize)
    {s : St} (hrun : MigrationRun c s) : Agrees c s := by
  have hc := counts_of_size h0 hsize
  exact (migrationRun_settled h0 hc hrun).agrees h0 hc


theorem blankBooted_erased : ErasedStart ⟨0, 3⟩ blankBooted := by
  have hinit :
      (initBmt ⟨0, 3⟩ (storingHost fun _ => true) 3 (powerOn blankFlash)).1 = some true := by
    decide +kernel
  exact initBmt_erased (storingHost_faithful _) (fun _ _ _ => rfl) (Or.inr (by decide))
    (fun _ _ => Or.inr erasedPage_blank) (Prod.ext hinit rfl)

/-- The first page of block 0 fails, and block 0 is replaced. -/
def copiedOnce : St :=
  (updateBmt ⟨0, 3⟩ (storingHost fun _ => true) 3 0 .writeFail (some fun _ => 0x5a) blankBooted).2

theorem reconstruct_bmt_agrees_once : Agrees ⟨0, 3⟩ copiedOnce := by
  have hdone : (updateBmt ⟨0, 3⟩ (storingHost fun _ => true) 3 0 .writeFail (some fun _ => 0x5a)
      blankBooted).1 = some true := by decide +kernel
  have hmaps : ∀ b n, ¬Maps blankBooted.bmt b n := by
    rintro b n ⟨i, hi, _⟩
    rw [blankBooted_erased.empty] at hi
    exact absurd hi (Nat.not_lt_zero i)
  have hsystem : 0 / Conf.blockSize ⟨0, 3⟩ < Conf.systemBlockCount ⟨0, 3⟩ := by decide +kernel
  have hok : CopyOk ⟨0, 3⟩ (storingHost fun _ => true) blankBooted 0 :=
    { marks := fun _ _ _ => rfl
      faithful := storingHost_faithful _
      origin := ⟨0 / Conf.blockSize ⟨0, 3⟩, by
        rw [Origin, if_pos hsystem]
        exact ⟨rfl, fun n hm => hmaps _ n hm⟩⟩
      copy := by
        rw [CopyWritten, if_pos hsystem]
        exact Or.inl (by decide +kernel)
      mark := Or.inr ⟨(firstPage_iff 0).mpr (by decide +kernel), fun _ => rfl⟩
      others := fun b n hm => absurd hm (hmaps b n)
      table := by
        rw [TableUnnamed, if_neg (by decide)]
        decide }
  have hdrive : DriverKeeps ⟨0, 3⟩ blankBooted blankBooted.flash :=
    ⟨fun _ _ _ => rfl, fun _ _ _ => rfl, fun _ _ _ hbad => hbad⟩
  exact reconstruct_bmt_agrees (by decide) (by decide)
    (MigrationRun.update _ 3 0 _ blankBooted.flash blankBooted _
      (MigrationRun.start blankBooted blankBooted_erased) hdrive hok (Prod.ext hdone rfl))

/-- The flash after the page of the table was overwritten with zeros. -/
def overwritten (c : Conf) (s : St) : Flash where
  page := Function.update s.flash.page (s.bmtBlockIndex * c.pagePerBlock) fun i =>
    if i < c.pageSize then 0 else s.flash.page (s.bmtBlockIndex * c.pagePerBlock) i
  erased := s.flash.erased

theorem overwritten_lost {s : St} (h : s.bmtBlockIndex ≠ 0) : TableLost c s (overwritten c s) := by
  refine ⟨fun p hp => Function.update_of_ne (hp h) _ _, Or.inl fun i hi _ => ?_⟩
  unfold overwritten
  dsimp only
  rw [Function.update_self, if_neg (not_lt.mpr hi)]

/-- The mapping of block 0 is not collected when the second page of block 0 fails: the mark goes
to that page, so block 0 does not count as bad. Nor is it collected when its replacement 2045
fails in the first page: block 2046, which replaces that, gets no index. -/
theorem copies_forgotten :
    let unmarked := updateBmt ⟨0, 3⟩ (storingHost fun _ => true) 3 512 .writeFail
      (some fun _ => 0x5a) blankBooted
    let unnamed := updateBmt ⟨0, 3⟩ (storingHost fun _ => true) 3 (Conf.offset ⟨0, 3⟩ 2045)
      .writeFail (some fun _ => 0x5a) copiedOnce
    ErasedStart ⟨0, 3⟩ blankBooted ∧
      (unmarked.1 = some true ∧ getMappingBlockIndex ⟨0, 3⟩ unmarked.2.bmt 0 = 2045 ∧
        ¬Agrees ⟨0, 3⟩ unmarked.2) ∧
      unnamed.1 = some true ∧ getMappingBlockIndex ⟨0, 3⟩ unnamed.2.bmt 0 = 2046 ∧
        ¬Agrees ⟨0, 3⟩ unnamed.2 := by
  intro unmarked unnamed
  have hforgotten {s : St} (hne : s.bmtBlockIndex ≠ 0)
      (hmap : getMappingBlockIndex ⟨0, 3⟩ (reconstructBmt ⟨0, 3⟩ (storingHost fun _ => true) 3
        (powerOn (overwritten ⟨0, 3⟩ s))).2.bmt 0 ≠ getMappingBlockIndex ⟨0, 3⟩ s.bmt 0) :
      ¬Agrees ⟨0, 3⟩ s := fun h =>
    hmap ((h (storingHost fun _ => true) 3 (powerOn (overwritten ⟨0, 3⟩ s)) (fun _ _ => rfl)
      (overwritten_lost hne)).2 0)
  exact ⟨blankBooted_erased, ⟨by decide +kernel, by decide +kernel,
    hforgotten (by decide +kernel) (by decide +kernel)⟩, by decide +kernel, by decide +kernel,
    hforgotten (by decide +kernel) (by decide +kernel)⟩

end Iot7688.Bmt
