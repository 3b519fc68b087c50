import Iot7688.BmtRun

/-!
The pages of the flash under the operations of the block table. A predicate Q on first
pages that a blank page meets, such as to hold no table or to name no block, is kept by
all free blocks: a block is calm when it is marked bad or its first page meets Q.
-/
namespace Iot7688.Bmt

section

variable (c : Conf)

/-- The controller stores what it reports as written, and a read delivers what the page
holds. -/
structure Faithful (host : Host) : Prop where
  stores : ∀ tick page old buf, host.write tick page = .ok → host.cells tick old buf = buf
  reads : ∀ tick buf, host.read tick buf = (true, buf)

def firstPage (s : St) (block : ℕ) : Buf := s.flash.page (block * c.pagePerBlock)

/-- A step that changes pages of one block only. -/
structure OnlyPages (block : ℕ) (s s' : St) : Prop where
  bmt : s'.bmt = s.bmt
  index : s'.bmtBlockIndex = s.bmtBlockIndex
  swept : s'.poolErased = s.poolErased
  tick : s.tick ≤ s'.tick
  page : ∀ p, p / c.pagePerBlock ≠ block → s'.flash.page p = s.flash.page p

variable (Q : Buf → Prop)

def Calm (s : St) (b : ℕ) : Prop := bad c s.flash b = true ∨ Q (firstPage c s b)

/-- A block of the pool that neither is mapped nor holds the table. -/
def Free (s : St) (b : ℕ) : Prop :=
  InPool c b ∧ b ≠ s.bmtBlockIndex ∧ isBlockMapped s.bmt b = none

def FreeCalm (s : St) : Prop := ∀ b, Free c s b → Calm c Q s b

/-- The next search leaves all free blocks calm; a sweep that is due skips everything
when the table is in the first block of the pool. -/
def ReadyCalm (s : St) : Prop :=
  ∀ b, Free c s b → Calm c Q s b ∨
    s.poolErased = false ∧ s.bmtBlockIndex ≠ c.systemBlockCount

/-- The block is not one that a search may hand out. -/
def Kept (s : St) (b : ℕ) : Prop :=
  b < c.systemBlockCount ∨ isBlockMapped s.bmt b ≠ none ∨ bad c s.flash b = true

end

variable {c : Conf} {host : Host} {Q : Buf → Prop}

theorem bad_firstPage (s : St) (b : ℕ) : bad c s.flash b = (firstPage c s b (badPos c) != 0xff) :=
  bad_eq s.flash b

theorem Calm.of_firstPage {s s' : St} {b : ℕ} (h : firstPage c s' b = firstPage c s b)
    (hs : Calm c Q s b) : Calm c Q s' b := by
  rw [Calm, bad_firstPage] at hs ⊢
  rwa [h]

namespace OnlyPages

variable {block : ℕ} {s s1 s2 : St}

theorem refl (block : ℕ) (s : St) : OnlyPages c block s s :=
  ⟨rfl, rfl, rfl, Nat.le_refl _, fun _ _ => rfl⟩

theorem trans (h : OnlyPages c block s s1) (h' : OnlyPages c block s1 s2) :
    OnlyPages c block s s2 where
  bmt := h'.bmt.trans h.bmt
  index := h'.index.trans h.index
  swept := h'.swept.trans h.swept
  tick := Nat.le_trans h.tick h'.tick
  page := fun p hp => (h'.page p hp).trans (h.page p hp)

theorem first (h : OnlyPages c block s s1) {b : ℕ} (hb : b ≠ block) :
    firstPage c s1 b = firstPage c s b := by
  apply h.page
  rwa [page_block]

theorem bad (h : OnlyPages c block s s1) {b : ℕ} (hb : b ≠ block) :
    bad c s1.flash b = bad c s.flash b := by
  rw [bad_firstPage, bad_firstPage, h.first hb]

theorem calm (h : OnlyPages c block s s1) {b : ℕ} (hb : b ≠ block) (hs : Calm c Q s b) :
    Calm c Q s1 b := hs.of_firstPage (h.first hb)

theorem free (h : OnlyPages c block s s1) {b : ℕ} : Free c s1 b ↔ Free c s b := by
  rw [Free, Free, h.bmt, h.index]

end OnlyPages

theorem nandEraseBmt_pages (block : ℕ) (s : St) :
    OnlyPages c block s (nandEraseBmt c host (c.offset block) s).2 := by
  refine ⟨rfl, rfl, rfl, Nat.le_succ _, fun p hp => if_neg ?_⟩
  rw [offset_page, page_block]
  exact hp

theorem nandEraseBmt_blank {block : ℕ} {s : St}
    (h : (nandEraseBmt c host (c.offset block) s).1 = true) :
    firstPage c (nandEraseBmt c host (c.offset block) s).2 block = fun _ => 0xff := by
  have hblock : block * c.pagePerBlock / c.pagePerBlock =
      c.offset block >>> c.pageSizeBit / c.pagePerBlock := by rw [offset_page]
  have hok : host.eraseOk s.tick (c.offset block >>> c.pageSizeBit / c.pagePerBlock) = true := h
  unfold firstPage nandEraseBmt
  dsimp only
  rw [if_pos hblock, if_pos hok]

/-- A mark touches one page. -/
theorem markBlockBadBmt_page {offset p : ℕ} (s : St) (hp : p ≠ offset >>> c.pageSizeBit) :
    (markBlockBadBmt c host offset s).flash.page p = s.flash.page p := by
  unfold markBlockBadBmt
  dsimp only
  split
  · exact Function.update_of_ne hp _ _
  · rfl

theorem markBlockBadBmt_pages (offset : ℕ) (s : St) :
    OnlyPages c (offset / c.blockSize) s (markBlockBadBmt c host offset s) := by
  refine ⟨rfl, rfl, rfl, Nat.le_succ _, fun p hp => markBlockBadBmt_page s ?_⟩
  rintro rfl
  exact hp (offset_block offset)

theorem offset_div (block : ℕ) : c.offset block / c.blockSize = block := by
  rw [← offset_block, offset_page, page_block]

theorem markBlockBadBmt_offset_pages (block : ℕ) (s : St) :
    OnlyPages c block s (markBlockBadBmt c host (c.offset block) s) := by
  have h : OnlyPages c (c.offset block / c.blockSize) s
      (markBlockBadBmt c host (c.offset block) s) := markBlockBadBmt_pages _ s
  rwa [offset_div] at h

/-- What goes to a page that is written from dat, or from dat_buf, and oob_buf. -/
def pageSource (c : Conf) (dat : Option Buf) (pageBuf : Buf) : Buf :=
  match dat with
  | some dat => fun i => if i < c.pageSize then dat i else pageBuf i
  | none => pageBuf

theorem nfcWritePage_pages (buf : Buf) {block page : ℕ} (s : St)
    (hpage : page / c.pagePerBlock = block) :
    OnlyPages c block s (nfcWritePage c host buf page s).2.2 := by
  have hne : ∀ p, p / c.pagePerBlock ≠ block → p ≠ page ∧ p ≠ block * c.pagePerBlock := by
    intro p hp
    constructor
    · rintro rfl
      exact hp hpage
    · rintro rfl
      exact hp (page_block block)
  unfold nfcWritePage
  dsimp only
  rw [hpage]
  split
  · exact ⟨rfl, rfl, rfl, Nat.le_succ _, fun p hp => Function.update_of_ne (hne p hp).1 _ _⟩
  · exact ⟨rfl, rfl, rfl, Nat.le_succ _, fun p hp => Function.update_of_ne (hne p hp).1 _ _⟩
  · refine ⟨rfl, rfl, rfl, Nat.le_succ _, fun p hp => ?_⟩
    dsimp only
    split
    · rw [Function.update_of_ne (hne p hp).2, Function.update_of_ne (hne p hp).1]
    · exact Function.update_of_ne (hne p hp).1 _ _

theorem nandWritePageBmt_pages {block page : ℕ} (dat : Option Buf) (s : St)
    (hpage : page / c.pagePerBlock = block) :
    OnlyPages c block s (nandWritePageBmt c host page dat s).2 := by
  unfold nandWritePageBmt
  cases dat with
  | some dat => exact nfcWritePage_pages _ s hpage
  | none => exact { nfcWritePage_pages s.pageBuf s hpage with }

theorem nfcWritePage_ok (buf : Buf) {page : ℕ} {s : St} (hok : host.write s.tick page = .ok) :
    nfcWritePage c host buf page s = (true, buf, { s with
      tick := s.tick + 1
      flash := ⟨Function.update s.flash.page page (host.cells s.tick (s.flash.page page) buf),
        Function.update s.flash.erased (page / c.pagePerBlock) false⟩ }) := by
  unfold nfcWritePage
  dsimp only
  rw [hok]

/-- A write that is reported as done. -/
structure Stored (c : Conf) (host : Host) (page : ℕ) (dat : Option Buf) (s s' : St) : Prop where
  ok : host.write s.tick page = .ok
  stored : s'.flash.page page = pageSource c dat s.pageBuf
  others : ∀ p, p ≠ page → s'.flash.page p = s.flash.page p
  pageBuf : s'.pageBuf = s.pageBuf

theorem nandWritePageBmt_stored (hfaith : Faithful host) {page : ℕ} {dat : Option Buf} {s : St}
    (h : (nandWritePageBmt c host page dat s).1 = true) :
    Stored c host page dat s (nandWritePageBmt c host page dat s).2 := by
  have hok : host.write s.tick page = .ok := by
    unfold nandWritePageBmt nfcWritePage at h
    cases hw : host.write s.tick page with
    | ok => rfl
    | fail | verifyFail =>
      cases dat with
      | some | none => simp [hw] at h
  have hcells (buf : Buf) := hfaith.stores s.tick page (s.flash.page page) buf hok
  unfold nandWritePageBmt
  cases dat with
  | some dat =>
    dsimp only
    rw [nfcWritePage_ok _ hok, hcells]
    exact ⟨hok, Function.update_self _ _ _, fun p hp => Function.update_of_ne hp _ _, rfl⟩
  | none =>
    dsimp only
    rw [nfcWritePage_ok _ hok, hcells]
    exact ⟨hok, Function.update_self _ _ _, fun p hp => Function.update_of_ne hp _ _, rfl⟩

theorem nandReadPageBmt_pages (block page : ℕ) (s : St) :
    OnlyPages c block s (nandReadPageBmt c host page s).2 :=
  ⟨rfl, rfl, rfl, Nat.le_succ _, fun _ _ => rfl⟩

theorem nandReadPageBmt_pageBuf (hfaith : Faithful host) (page : ℕ) (s : St) {i : ℕ}
    (hi : i < c.pageSize + c.oobSize) :
    (nandReadPageBmt c host page s).2.pageBuf i = s.flash.page page i := by
  unfold nandReadPageBmt
  dsimp only
  rw [if_pos hi, hfaith.reads]

theorem bad_of_kept {s s' : St} {b : ℕ} (hk : ∀ p, Kept c s (p / c.pagePerBlock) →
    s'.flash.page p = s.flash.page p) (h : bad c s.flash b = true) : bad c s'.flash b = true := by
  have hpage := hk (b * c.pagePerBlock) (Or.inr (Or.inr (by rwa [page_block])))
  rw [bad_eq] at h ⊢
  rwa [hpage]

/-- One erase of the sweep, with the mark after a failure, leaves the block calm. -/
theorem eraseOrMark_pages (c : Conf) (host : Host) (block : ℕ) (s : St) :
    let e := nandEraseBmt c host (c.offset block) s
    let t := if e.1 then e.2 else markBlockBadBmt c host (c.offset block) e.2
    OnlyPages c block s t ∧ t.pageBuf = s.pageBuf := by
  intro e t
  have honly : OnlyPages c block s e.2 := nandEraseBmt_pages block s
  by_cases he : e.1 = true
  · have ht : t = e.2 := if_pos he
    rw [ht]
    exact ⟨honly, rfl⟩
  · have ht : t = markBlockBadBmt c host (c.offset block) e.2 := if_neg he
    rw [ht]
    exact ⟨honly.trans (markBlockBadBmt_offset_pages block e.2), rfl⟩

theorem eraseOrMark_calm (hQ : Q fun _ => 0xff) (hmarks : MarksWork c host) {block : ℕ}
    (hblock : c.systemBlockCount ≤ block) (s : St) :
    let e := nandEraseBmt c host (c.offset block) s
    Calm c Q (if e.1 then e.2 else markBlockBadBmt c host (c.offset block) e.2) block := by
  intro e
  split
  · rename_i he
    right
    rw [nandEraseBmt_blank he]
    exact hQ
  · exact Or.inl (markBlockBadBmt_offset_bad hmarks hblock)

/-- What the sweep leaves of the pages. -/
structure SweepPages (c : Conf) (Q : Buf → Prop) (is : List ℕ) (s s' : St) : Prop where
  bmt : s'.bmt = s.bmt
  index : s'.bmtBlockIndex = s.bmtBlockIndex
  tick : s.tick ≤ s'.tick
  pageBuf : s'.pageBuf = s.pageBuf
  kept : ∀ p, Kept c s (p / c.pagePerBlock) → s'.flash.page p = s.flash.page p
  calm : ∀ b, Calm c Q s b → Calm c Q s' b
  reaches : s.bmtBlockIndex ≠ c.systemBlockCount → ∀ i ∈ is,
    isBlockMapped s.bmt (c.systemBlockCount + i) = none → Calm c Q s' (c.systemBlockCount + i)

theorem SweepPages.cons_skip {i : ℕ} {is : List ℕ} {s s' : St} (h : SweepPages c Q is s s')
    (hi : s.bmtBlockIndex ≠ c.systemBlockCount →
      isBlockMapped s.bmt (c.systemBlockCount + i) = none →
      Calm c Q s (c.systemBlockCount + i)) : SweepPages c Q (i :: is) s s' := by
  refine { h with reaches := ?_ }
  intro hindex j hj hmapped
  rcases List.mem_cons.mp hj with rfl | hj
  · exact h.calm _ (hi hindex hmapped)
  · exact h.reaches hindex j hj hmapped

theorem eraseUnmapped_pages (hQ : Q fun _ => 0xff) (hmarks : MarksWork c host) (is : List ℕ)
    (s : St) : SweepPages c Q is s (eraseUnmapped c host is s).2 := by
  induction is generalizing s with
  | nil => exact ⟨rfl, rfl, Nat.le_refl _, rfl, fun _ _ => rfl, fun _ h => h, by simp⟩
  | cons i is ih =>
    rw [eraseUnmapped]
    dsimp only
    by_cases hindex : c.systemBlockCount = s.bmtBlockIndex
    · rw [if_pos hindex]
      exact (ih s).cons_skip fun hne => absurd hindex.symm hne
    rw [if_neg hindex]
    by_cases hbad : nandBlockBadBmt c s.flash (c.offset (c.systemBlockCount + i)) = true
    · rw [if_pos hbad]
      exact (ih s).cons_skip fun _ _ => Or.inl hbad
    rw [if_neg hbad]
    by_cases hmap : (isBlockMapped s.bmt (c.systemBlockCount + i)).isSome = true
    · rw [if_pos hmap]
      exact (ih s).cons_skip fun _ hnone => by simp [hnone] at hmap
    rw [if_neg hmap]
    obtain ⟨honly, hbuf⟩ := eraseOrMark_pages c host (c.systemBlockCount + i) s
    have hcalm := eraseOrMark_calm hQ hmarks (Nat.le_add_right c.systemBlockCount i) s
    dsimp only at honly hbuf hcalm
    set t := if (nandEraseBmt c host (c.offset (c.systemBlockCount + i)) s).1 then _ else _
    have h := ih t
    refine ⟨h.bmt.trans honly.bmt, h.index.trans honly.index, Nat.le_trans honly.tick h.tick,
      h.pageBuf.trans hbuf, ?_, ?_, ?_⟩
    · intro p hp
      have hne : p / c.pagePerBlock ≠ c.systemBlockCount + i := by
        intro heq
        rw [heq] at hp
        rcases hp with hsys | hmapped | hmark
        · omega
        · exact hmapped (by simpa using hmap)
        · exact hbad hmark
      rw [← honly.page p hne]
      apply h.kept
      rwa [Kept, honly.bmt, honly.bad hne]
    · intro b hb
      apply h.calm
      by_cases hbi : b = c.systemBlockCount + i
      · rw [hbi]
        exact hcalm
      · exact honly.calm hbi hb
    · intro hne j hj hmapped
      rcases List.mem_cons.mp hj with rfl | hj
      · exact h.calm _ hcalm
      · refine h.reaches ?_ j hj ?_
        · rwa [honly.index]
        · rwa [honly.bmt]

/-- What a search leaves of the pages, and the block that it hands out. -/
structure FoundPages (c : Conf) (Q : Buf → Prop) (s : St) (r : ℕ × St) : Prop where
  bmt : r.2.bmt = s.bmt
  index : r.2.bmtBlockIndex = s.bmtBlockIndex
  swept : r.2.poolErased = true
  tick : s.tick ≤ r.2.tick
  kept : ∀ p, Kept c s (p / c.pagePerBlock) → r.2.flash.page p = s.flash.page p
  calm : ∀ b, Calm c Q s b → Calm c Q r.2 b
  free : ReadyCalm c Q s → FreeCalm c Q r.2
  pageBuf : r.2.pageBuf = s.pageBuf
  found : r.1 ≠ 0 → Free c s r.1 ∧ bad c r.2.flash r.1 = false

theorem findAvailableBlock_pages (hQ : Q fun _ => 0xff) (hmarks : MarksWork c host) (hc : Counts c)
    (startFromEnd : Bool) (s : St) : FoundPages c Q s (findAvailableBlock c host startFromEnd s) := by
  have hsweep : SweepPages c Q (if s.poolErased then [] else List.range c.bmtBlockCount) s
      (sweepPool c host s).2 ∧ (sweepPool c host s).2.poolErased = true := by
    unfold sweepPool
    cases hpe : s.poolErased with
    | true => exact ⟨⟨rfl, rfl, Nat.le_refl _, rfl, fun _ _ => rfl, fun _ h => h, by simp⟩, hpe⟩
    | false => exact ⟨{ eraseUnmapped_pages hQ hmarks (List.range c.bmtBlockCount) s with }, rfl⟩
  obtain ⟨h, hswept⟩ := hsweep
  unfold findAvailableBlock
  dsimp only
  refine ⟨h.bmt, h.index, hswept, h.tick, h.kept, h.calm, ?_, h.pageBuf, ?_⟩
  · intro hready b hb
    have hb' : Free c s b := by
      rw [Free, ← h.bmt, ← h.index]
      exact hb
    rcases hready b hb' with hcalm | ⟨hpe, hindex⟩
    · exact h.calm b hcalm
    · obtain ⟨i, rfl⟩ := Nat.exists_eq_add_of_le hb'.1.1
      have hi : i < c.bmtBlockCount := by
        have hlt := hb'.1.2
        have htotal := hc.total
        omega
      refine h.reaches hindex i ?_ hb'.2.2
      rw [hpe]
      exact List.mem_range.mpr hi
  · intro hne
    cases hfind : (poolBlocks c startFromEnd).find? (isAvailable c (sweepPool c host s).2) with
    | none =>
      rw [hfind] at hne
      exact absurd rfl hne
    | some b =>
      rw [Option.getD_some]
      have hav := List.find?_some hfind
      simp only [isAvailable, h.bmt, h.index, Bool.and_eq_true, bne_iff_ne, Bool.not_eq_true',
        Option.isNone_iff_eq_none] at hav
      exact ⟨⟨mem_poolBlocks hc.total (List.mem_of_find?_eq_some hfind), hav.1.1, hav.2⟩, hav.1.2⟩

/-- The mark that nfc_write_page leaves in a buffer whose write fails its verification. -/
def spoiled (c : Conf) (buf : Buf) : Buf := Function.update buf (badPos c) 0x33

theorem spoiled_spoiled (buf : Buf) : spoiled c (spoiled c buf) = spoiled c buf :=
  Function.update_idem _ _ _

/-- No write of the first page of a pool block fails its verification from now on. -/
def Verified (c : Conf) (host : Host) (s : St) : Prop :=
  ∀ tick block marked, s.tick ≤ tick → InPool c block →
    host.write tick (block * c.pagePerBlock) ≠ .verifyFail marked

/-- The buffer after a write from dat_buf. -/
theorem nandWritePageBmt_buffer (page : ℕ) (s : St) :
    let s' := (nandWritePageBmt c host page none s).2
    s'.pageBuf = s.pageBuf ∨
      s'.pageBuf = spoiled c s.pageBuf ∧ ∃ marked, host.write s.tick page = .verifyFail marked := by
  intro s'
  have hbuf : s'.pageBuf = (nfcWritePage c host s.pageBuf page s).2.1 := rfl
  rw [hbuf]
  unfold nfcWritePage
  dsimp only
  split
  · exact Or.inl rfl
  · exact Or.inl rfl
  · next marked hw => exact Or.inr ⟨rfl, marked, hw⟩

/-- The table is in a block of the pool, the old one or one that was good and free. -/
structure TableStored (c : Conf) (host : Host) (s s' : St) : Prop where
  pool : InPool c s'.bmtBlockIndex
  place : s'.bmtBlockIndex = s.bmtBlockIndex ∨
    bad c s.flash s'.bmtBlockIndex = false ∧ isBlockMapped s.bmt s'.bmtBlockIndex = none
  page : firstPage c s' s'.bmtBlockIndex = s.pageBuf ∨
    firstPage c s' s'.bmtBlockIndex = spoiled c s.pageBuf
  verified : Verified c host s → firstPage c s' s'.bmtBlockIndex = s.pageBuf

/-- What write_bmt_to_flash leaves of the pages. -/
structure WrotePages (c : Conf) (host : Host) (Q : Buf → Prop) (s : St) (r : Option Bool × St) :
    Prop where
  bmt : r.2.bmt = s.bmt
  index : r.2.bmtBlockIndex ≠ 0 → InPool c r.2.bmtBlockIndex
  kept : ∀ p, Kept c s (p / c.pagePerBlock) →
    (s.bmtBlockIndex ≠ 0 → p / c.pagePerBlock ≠ s.bmtBlockIndex) →
    r.2.flash.page p = s.flash.page p
  old : s.bmtBlockIndex ≠ 0 → r.2.bmtBlockIndex = s.bmtBlockIndex ∨
    bad c r.2.flash s.bmtBlockIndex = true
  free : r.1 ≠ none → FreeCalm c Q r.2 ∧ r.2.poolErased = true
  done : r.1 = some true → TableStored c host s r.2

/-- The state in which write_bmt_to_flash is called. -/
structure TableReady (c : Conf) (Q : Buf → Prop) (s : St) : Prop where
  index : s.bmtBlockIndex ≠ 0 → InPool c s.bmtBlockIndex
  free : ReadyCalm c Q s
  swept : s.bmtBlockIndex ≠ 0 → s.poolErased = true

/-- After a failure on the table block: it is marked bad and given up. -/
theorem TableReady.retry (hmarks : MarksWork c host) {s s' : St} (h : TableReady c Q s)
    (hidx : s.bmtBlockIndex ≠ 0) (honly : OnlyPages c s.bmtBlockIndex s s') :
    let t := { markBlockBadBmt c host (c.offset s.bmtBlockIndex) s' with bmtBlockIndex := 0 }
    TableReady c Q t ∧ OnlyPages c s.bmtBlockIndex s { t with bmtBlockIndex := s.bmtBlockIndex } ∧
      bad c t.flash s.bmtBlockIndex = true := by
  intro t
  have hboth : OnlyPages c s.bmtBlockIndex s
      (markBlockBadBmt c host (c.offset s.bmtBlockIndex) s') :=
    honly.trans (markBlockBadBmt_offset_pages s.bmtBlockIndex s')
  have ht : OnlyPages c s.bmtBlockIndex s { t with bmtBlockIndex := s.bmtBlockIndex } :=
    { hboth with index := rfl }
  have hbad : bad c t.flash s.bmtBlockIndex = true :=
    markBlockBadBmt_offset_bad hmarks (h.index hidx).1
  refine ⟨⟨fun hne => absurd rfl hne, ?_, fun hne => absurd rfl hne⟩, ht, hbad⟩
  intro b hb
  left
  by_cases hbi : b = s.bmtBlockIndex
  · rw [hbi]
    exact Or.inl hbad
  · have hfree : Free c s b := ⟨hb.1, hbi, ht.bmt ▸ hb.2.2⟩
    rcases h.free b hfree with hcalm | ⟨hpe, _⟩
    · exact ht.calm hbi hcalm
    · rw [h.swept hidx] at hpe
      cases hpe

/-- The next try after a failure on the table block. -/
theorem WrotePages.of_retry {s t : St} {r : Option Bool × St} (hc : Counts c)
    (h : WrotePages c host Q t r) (ht : t.bmtBlockIndex = 0)
    (honly : OnlyPages c s.bmtBlockIndex s { t with bmtBlockIndex := s.bmtBlockIndex })
    (hbad : bad c t.flash s.bmtBlockIndex = true) (hidx : s.bmtBlockIndex ≠ 0)
    (hbuf : t.pageBuf = s.pageBuf ∨ t.pageBuf = spoiled c s.pageBuf ∧ ¬Verified c host s) :
    WrotePages c host Q s r where
  bmt := h.bmt.trans honly.bmt
  index := h.index
  kept := by
    intro p hp hne
    have hpage := honly.page p (hne hidx)
    rw [← hpage]
    refine h.kept p ?_ fun hzero => absurd ht hzero
    have hmark : bad c t.flash (p / c.pagePerBlock) = bad c s.flash (p / c.pagePerBlock) :=
      honly.bad (hne hidx)
    have hbmt : t.bmt = s.bmt := honly.bmt
    rwa [Kept, hbmt, hmark]
  old := by
    intro _
    have hkept := h.kept (s.bmtBlockIndex * c.pagePerBlock)
      (Or.inr (Or.inr (by rwa [page_block]))) fun hzero => absurd ht hzero
    right
    rw [bad_eq] at hbad ⊢
    rwa [hkept]
  free := h.free
  done := by
    intro hr
    obtain ⟨hpool, hplace, hpage, hverified⟩ := h.done hr
    have hmonotone : Verified c host s → Verified c host t :=
      fun hv tick block marked htick => hv tick block marked (Nat.le_trans honly.tick htick)
    refine ⟨hpool, Or.inr ?_, ?_, ?_⟩
    · rcases hplace with hold | ⟨hgood, hmapped⟩
      · have hpos := hc.system
        have := hpool.1
        omega
      · have hne : r.2.bmtBlockIndex ≠ s.bmtBlockIndex := by
          intro heq
          rw [heq, hbad] at hgood
          cases hgood
        exact ⟨(honly.bad hne).symm.trans hgood, honly.bmt ▸ hmapped⟩
    · rcases hbuf with hbuf | ⟨hbuf, _⟩
      · rwa [hbuf] at hpage
      · rw [hbuf, spoiled_spoiled] at hpage
        exact Or.inr (hpage.elim id id)
    · intro hv
      rcases hbuf with hbuf | ⟨_, hnot⟩
      · rw [← hbuf]
        exact hverified (hmonotone hv)
      · exact absurd hv hnot

/-- The page of the table is written. -/
theorem WrotePages.of_write (hfaith : Faithful host) {s e : St} (h : TableReady c Q s)
    (hidx : s.bmtBlockIndex ≠ 0) (honly : OnlyPages c s.bmtBlockIndex s e)
    (hbuf : e.pageBuf = s.pageBuf)
    (hok : (nandWritePageBmt c host (c.pageAddr s.bmtBlockIndex) none e).1 = true) :
    WrotePages c host Q s
      (some true, (nandWritePageBmt c host (c.pageAddr s.bmtBlockIndex) none e).2) := by
  have hpage : c.pageAddr s.bmtBlockIndex / c.pagePerBlock = s.bmtBlockIndex := by
    rw [pageAddr_eq, page_block]
  have hboth : OnlyPages c s.bmtBlockIndex s
      (nandWritePageBmt c host (c.pageAddr s.bmtBlockIndex) none e).2 :=
    honly.trans (nandWritePageBmt_pages none e hpage)
  have hstored := (nandWritePageBmt_stored hfaith hok).stored
  set s' := (nandWritePageBmt c host (c.pageAddr s.bmtBlockIndex) none e).2
  have hfirst : firstPage c s' s'.bmtBlockIndex = s.pageBuf := by
    rw [hboth.index, ← hbuf, firstPage, ← pageAddr_eq]
    exact hstored
  refine ⟨hboth.bmt, fun _ => hboth.index ▸ h.index hidx, fun p _ hne => hboth.page p (hne hidx),
    fun _ => Or.inl hboth.index, fun _ => ⟨?_, hboth.swept.trans (h.swept hidx)⟩,
    fun _ => ⟨hboth.index ▸ h.index hidx, Or.inl hboth.index, Or.inl hfirst, fun _ => hfirst⟩⟩
  intro b hb
  have hfree := hboth.free.mp hb
  rcases h.free b hfree with hcalm | ⟨hpe, _⟩
  · exact hboth.calm hfree.2.1 hcalm
  · rw [h.swept hidx] at hpe
    cases hpe

/-- The page of the table could not be written. -/
theorem TableReady.unwritten (hmarks : MarksWork c host) {s e : St} (h : TableReady c Q s)
    (hidx : s.bmtBlockIndex ≠ 0) (honly : OnlyPages c s.bmtBlockIndex s e)
    (hbuf : e.pageBuf = s.pageBuf) :
    let w := nandWritePageBmt c host (c.pageAddr s.bmtBlockIndex) none e
    let t := { markBlockBadBmt c host (c.offset s.bmtBlockIndex) w.2 with bmtBlockIndex := 0 }
    TableReady c Q t ∧ OnlyPages c s.bmtBlockIndex s { t with bmtBlockIndex := s.bmtBlockIndex } ∧
      bad c t.flash s.bmtBlockIndex = true ∧
      (t.pageBuf = s.pageBuf ∨ t.pageBuf = spoiled c s.pageBuf ∧ ¬Verified c host s) := by
  intro w t
  have hpage : c.pageAddr s.bmtBlockIndex / c.pagePerBlock = s.bmtBlockIndex := by
    rw [pageAddr_eq, page_block]
  have hboth : OnlyPages c s.bmtBlockIndex s w.2 :=
    honly.trans (nandWritePageBmt_pages none e hpage)
  obtain ⟨hready, ht, hbad⟩ := h.retry hmarks hidx hboth
  refine ⟨hready, ht, hbad, ?_⟩
  have hpageBuf : t.pageBuf = w.2.pageBuf := rfl
  rw [hpageBuf, ← hbuf]
  rcases nandWritePageBmt_buffer (c.pageAddr s.bmtBlockIndex) e with hsame | ⟨hspoiled, m, hw⟩
  · exact Or.inl hsame
  · refine Or.inr ⟨hspoiled, fun hv => ?_⟩
    rw [pageAddr_eq] at hw
    exact hv e.tick s.bmtBlockIndex m honly.tick (h.index hidx) hw

theorem FoundPages.choose {s : St} {r : ℕ × St} (h : FoundPages c Q s r) (hs : ReadyCalm c Q s)
    (hzero : s.bmtBlockIndex = 0) (hc : Counts c) :
    TableReady c Q { r.2 with bmtBlockIndex := r.1 } where
  index := fun hne => (h.found hne).1.1
  free := by
    intro b hb
    refine Or.inl (h.free hs b ⟨hb.1, ?_, hb.2.2⟩)
    have hpos := hc.system
    have := hb.1.1
    rw [h.index, hzero]
    omega
  swept := fun _ => h.swept

theorem FoundPages.kept_ne {s : St} {r : ℕ × St} (h : FoundPages c Q s r) (hne : r.1 ≠ 0) {b : ℕ}
    (hb : Kept c s b) : b ≠ r.1 := by
  rintro rfl
  have hfound := h.found hne
  rcases hb with hsys | hmapped | hbad
  · have := hfound.1.1.1
    omega
  · exact hmapped hfound.1.2.2
  · rw [bad_of_kept h.kept hbad] at hfound
    cases hfound.2

theorem FoundPages.kept_block {s : St} {r : ℕ × St} (h : FoundPages c Q s r) {b : ℕ}
    (hb : Kept c s b) : Kept c r.2 b := by
  rcases hb with hsys | hmapped | hbad
  · exact Or.inl hsys
  · exact Or.inr (Or.inl (h.bmt ▸ hmapped))
  · exact Or.inr (Or.inr (bad_of_kept h.kept hbad))

theorem FoundPages.wrote {s : St} {r : ℕ × St} {w : Option Bool × St} (h : FoundPages c Q s r)
    (hzero : s.bmtBlockIndex = 0) (hne : r.1 ≠ 0)
    (hw : WrotePages c host Q { r.2 with bmtBlockIndex := r.1 } w) : WrotePages c host Q s w where
  bmt := hw.bmt.trans h.bmt
  index := hw.index
  kept := by
    intro p hp _
    rw [← h.kept p hp]
    exact hw.kept p (h.kept_block hp) fun _ => h.kept_ne hne hp
  old := fun hne => absurd hzero hne
  free := hw.free
  done := by
    intro hr
    obtain ⟨hpool, hplace, hpage, hverified⟩ := hw.done hr
    have hgood {b : ℕ} (hb : bad c r.2.flash b = false) : bad c s.flash b = false := by
      cases hbad : bad c s.flash b with
      | false => rfl
      | true =>
        rw [bad_of_kept h.kept hbad] at hb
        cases hb
    have hbuf : ({ r.2 with bmtBlockIndex := r.1 } : St).pageBuf = s.pageBuf := h.pageBuf
    rw [hbuf] at hpage hverified
    refine ⟨hpool, Or.inr ?_, hpage, fun hv => hverified fun tick block m htick => hv tick block m
      (Nat.le_trans h.tick htick)⟩
    rcases hplace with hold | ⟨hgood', hmapped⟩
    · have hold' : w.2.bmtBlockIndex = r.1 := hold
      rw [hold']
      exact ⟨hgood (h.found hne).2, (h.found hne).1.2.2⟩
    · exact ⟨hgood hgood', h.bmt ▸ hmapped⟩

theorem writeBmtToFlash_pages (hfaith : Faithful host) (hQ : Q fun _ => 0xff)
    (hmarks : MarksWork c host) (hc : Counts c) (fuel : ℕ) {s : St} (h : TableReady c Q s) :
    WrotePages c host Q s (writeBmtToFlash c host fuel s) := by
  induction fuel generalizing s with
  | zero =>
    exact ⟨rfl, h.index, fun _ _ _ => rfl, fun _ => Or.inl rfl, fun hne => absurd rfl hne,
      fun hr => by cases hr⟩
  | succ fuel ih =>
    rw [writeBmtToFlash]
    dsimp only
    by_cases hidx : s.bmtBlockIndex = 0
    · rw [if_neg (not_not.mpr hidx), if_neg (not_not.mpr hidx)]
      have hfound := findAvailableBlock_pages hQ hmarks hc true s
      set f := findAvailableBlock c host true s with hf
      have hready := hfound.choose h.free hidx hc
      by_cases hnone : f.1 = 0
      · rw [if_pos hnone]
        refine ⟨hfound.bmt, hready.index, fun p hp _ => hfound.kept p hp,
          fun hne => absurd hidx hne, fun _ => ⟨?_, hfound.swept⟩, fun hr => by cases hr⟩
        intro b hb
        rcases hready.free b hb with hcalm | ⟨hpe, _⟩
        · exact hcalm
        · have hpe' : f.2.poolErased = false := hpe
          rw [hfound.swept] at hpe'
          cases hpe'
      · rw [if_neg hnone, if_pos rfl]
        have hwrote {w : Option Bool × St}
            (hw : WrotePages c host Q { f.2 with bmtBlockIndex := f.1 } w) :
            WrotePages c host Q s w := hfound.wrote hidx hnone hw
        generalize hs1 : ({ f.2 with bmtBlockIndex := f.1 } : St) = s1 at hready hwrote ⊢
        have hne : s1.bmtBlockIndex ≠ 0 := by
          rw [← hs1]
          exact hnone
        dsimp only
        split
        · next hok =>
          exact hwrote (WrotePages.of_write hfaith hready hne (OnlyPages.refl _ s1) rfl hok)
        · obtain ⟨ht, honly, hbad, hbuf⟩ := hready.unwritten hmarks hne (OnlyPages.refl _ s1) rfl
          exact hwrote ((ih ht).of_retry hc rfl honly hbad hne hbuf)
    · rw [if_pos hidx, if_pos hidx, if_neg hidx]
      have herase : OnlyPages c s.bmtBlockIndex s
          (nandEraseBmt c host (c.offset s.bmtBlockIndex) s).2 :=
        nandEraseBmt_pages s.bmtBlockIndex s
      have hbuf : (nandEraseBmt c host (c.offset s.bmtBlockIndex) s).2.pageBuf = s.pageBuf := rfl
      split
      · split
        · next hok => exact WrotePages.of_write hfaith h hidx herase hbuf hok
        · obtain ⟨ht, honly, hbad, hbuf'⟩ := h.unwritten hmarks hidx herase hbuf
          exact (ih ht).of_retry hc rfl honly hbad hidx hbuf'
      · obtain ⟨ht, honly, hbad⟩ := h.retry hmarks hidx herase
        exact (ih ht).of_retry hc rfl honly hbad hidx (Or.inl hbuf)

end Iot7688.Bmt
