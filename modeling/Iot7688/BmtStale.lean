import Iot7688.BmtData
import Iot7688.BmtRestart

/-!
When a migration preserves the data. With data of the caller it does, for a block that the
search spares. Without, the page whose write failed is read into a buffer that is dropped, so
its replacement gets what dat_buf happens to hold: from before the call, or after a failed copy
from the page of that copy.
-/
namespace Iot7688.Bmt

open Lib

section

variable (c : Conf)

/-- The caller gives data, or no block can be found, or dat_buf and each page that may be left in
it have the data of the page whose write failed. -/
def BufferFits (b e : ℕ) (dat : Option Buf) (s : St) : Prop :=
  dat ≠ none ∨ goodBlocks c s = ∅ ∨
    SameData c s.pageBuf (blockPage c s b e) ∧
      ∀ p, UsedOther c b e s p → SameData c (blockPage c s b p) (blockPage c s b e)

/-- A controller that refuses page p of every block for a while and cannot mark blocks. -/
def stallingHost (p deadline : ℕ) : Host where
  eraseOk _ _ := true
  write tick page := if page % c.pagePerBlock = p ∧ tick < deadline then .fail else .ok
  markOk _ _ := false
  scrap _ _ _ := 0
  cells _ _ buf := buf
  read _ page := (true, page)
  stack _ := 0

/-- The first page of the block carries no mark. -/
def Unmarked (s : St) (n : ℕ) : Prop := firstPage c s n (badPos c) = 0xff

/-- Another attempt can be made, with data d in page p of block b and in dat_buf. -/
structure Stalled (b p : ℕ) (d : Buf) (s : St) : Prop where
  spared : Spared c s b
  good : goodBlocks c s ≠ ∅
  buf : SameData c s.pageBuf d
  page : SameData c (blockPage c s b p) d

end

variable {c : Conf} {host : Host} {b e : ℕ} {s t : St}

theorem migrateAttempt_empty (hc : Counts c) (host : Host) (offset : ℕ) (dat : Option Buf)
    (h : goodBlocks c s = ∅) : (migrateAttempt c host offset dat s).1 = some 0 := by
  unfold migrateAttempt
  dsimp only
  set s0 : St := { s with pageBuf := _ } with hs0
  have hsearch := findAvailableBlock_searched hc host false s0
  have hnone : (findAvailableBlock c host false s0).1 = 0 := by
    by_contra hne
    have hgood : (findAvailableBlock c host false s0).1 ∈ goodBlocks c s :=
      hsearch.subset (hsearch.found hne)
    rw [h] at hgood
    exact absurd hgood (Finset.notMem_empty _)
  rw [if_pos hnone]

theorem Preserved.of_sameBlock {dat : Option Buf} {n : ℕ} {u : St} (he : e < c.pagePerBlock)
    (hsame : SameBlock c b s t) (h : Preserved c b e dat t n u) : Preserved c b e dat s n u := by
  obtain ⟨herror, hused⟩ := h
  rw [hsame.blockPage he] at herror
  refine ⟨herror, fun p hp => ?_⟩
  rw [← hsame.blockPage hp.1]
  exact hused p (hsame.usedOther.mpr hp)

/-- A failed attempt leaves a buffer that still fits. -/
theorem AttemptData.fits {dat : Option Buf} {r : Option ℕ × St} (he : e < c.pagePerBlock)
    (h : AttemptData c host b e dat s r) (hnone : r.1 = none) (hgood : goodBlocks c s ≠ ∅)
    (hfits : BufferFits c b e dat s) : BufferFits c b e dat r.2 := by
  rcases hfits with hgiven | hempty | ⟨hbuf, hpages⟩
  · exact Or.inl hgiven
  · exact absurd hempty hgood
  · refine Or.inr (Or.inr ?_)
    rw [h.same.blockPage he]
    refine ⟨?_, fun p hp => ?_⟩
    · rcases h.again hnone with ⟨hsame, _⟩ | ⟨p, hp, hleft, _⟩
      · exact hsame.trans hbuf
      · exact hleft.trans (hpages p hp)
    · rw [h.same.blockPage hp.1]
      exact hpages p (h.same.usedOther.mp hp)

/-- A migration whose buffer fits preserves the data, whatever the writes do. -/
theorem migrateFromBad_preserves (hfaith : Faithful host) (hc : Counts c) (fuel : ℕ)
    {offset : ℕ} {dat : Option Buf} (h : Spared c s (offset / c.blockSize))
    (hfits : BufferFits c (offset / c.blockSize) (offset / c.pageSize % c.pagePerBlock) dat s)
    {n : ℕ} (hn : n ≠ 0) (hrun : migrateFromBad c host fuel offset dat s = (some n, t)) :
    Preserved c (offset / c.blockSize) (offset / c.pageSize % c.pagePerBlock) dat s n t := by
  rw [migrateFromBad_eq_attempts] at hrun
  have he : offset / c.pageSize % c.pagePerBlock < c.pagePerBlock :=
    Nat.mod_lt _ pagePerBlock_pos
  induction fuel generalizing s with
  | zero => cases hrun
  | succ fuel ih =>
    have hattempt := migrateAttempt_data hfaith hc dat h
    have hgood : goodBlocks c s ≠ ∅ := by
      intro hempty
      have hzero := migrateAttempt_empty hc host offset dat hempty
      rw [attempts_done hzero] at hrun
      exact hn (Option.some.inj (Prod.mk.inj hrun).1).symm
    cases hres : (migrateAttempt c host offset dat s).1 with
    | some m =>
      rw [attempts_done hres] at hrun
      obtain ⟨hm, ht⟩ := Prod.mk.inj hrun
      obtain rfl := Option.some.inj hm
      have hholds := hattempt.done _ hn hres
      rw [ht] at hholds
      refine ⟨hholds.error.trans ?_, hholds.used⟩
      rcases hfits with hgiven | hempty | ⟨hbuf, _⟩
      · obtain ⟨d, rfl⟩ := Option.ne_none_iff_exists'.mp hgiven
        exact SameData.refl d
      · exact absurd hempty hgood
      · cases dat with
        | some d => exact SameData.refl d
        | none => exact hbuf
    | none =>
      rw [attempts_again hres] at hrun
      exact (ih hattempt.spared (hattempt.fits he hres hgood hfits) hrun).of_sameBlock he
        hattempt.same

theorem stallingHost_faithful (c : Conf) (p deadline : ℕ) : Faithful (stallingHost c p deadline) :=
  ⟨fun _ _ _ _ _ => rfl, fun _ _ => rfl⟩

/-- Only page p is refused, and only before the deadline. -/
theorem Refused.stalling {p q deadline start : ℕ} (hq : q < c.pagePerBlock)
    (h : Refused c (stallingHost c p deadline) start q) : q = p ∧ start < deadline := by
  obtain ⟨n, tick, hle, hwrite⟩ := h
  have hcond : (n * c.pagePerBlock + q) % c.pagePerBlock = p ∧ tick < deadline := by
    by_contra hno
    exact hwrite (if_neg hno)
  rw [Nat.mul_comm, Nat.mul_add_mod, Nat.mod_eq_of_lt hq] at hcond
  exact ⟨hcond.1, lt_of_le_of_lt hle hcond.2⟩

theorem mem_goodBlocks_iff_unmarked {n : ℕ} : n ∈ goodBlocks c s ↔
    InPool c n ∧ n ≠ s.bmtBlockIndex ∧ Unmarked c s n ∧ isBlockMapped s.bmt n = none := by
  rw [mem_goodBlocks, bad_firstPage, Unmarked]
  simp

/-- A sweep whose erases succeed keeps the good blocks. -/
theorem eraseUnmapped_stalling (p deadline : ℕ) (is : List ℕ) (s : St) :
    let t := (eraseUnmapped c (stallingHost c p deadline) is s).2
    goodBlocks c s ⊆ goodBlocks c t ∧ t.tick ≤ s.tick + is.length := by
  induction is generalizing s with
  | nil => exact ⟨fun _ h => h, le_refl _⟩
  | cons i is ih =>
    rw [eraseUnmapped, List.length_cons]
    dsimp only
    split
    · exact ⟨(ih s).1, (ih s).2.trans (by omega)⟩
    · split
      · exact ⟨(ih s).1, (ih s).2.trans (by omega)⟩
      · split
        · exact ⟨(ih s).1, (ih s).2.trans (by omega)⟩
        · have hok : (nandEraseBmt c (stallingHost c p deadline)
              (c.offset (c.systemBlockCount + i)) s).1 = true := rfl
          rw [if_pos hok]
          set u := (nandEraseBmt c (stallingHost c p deadline)
            (c.offset (c.systemBlockCount + i)) s).2 with hu
          have hpages : OnlyPages c (c.systemBlockCount + i) s u := nandEraseBmt_pages _ s
          have htick : u.tick = s.tick + 1 := rfl
          refine ⟨fun n hn => (ih u).1 ?_, (ih u).2.trans (by omega)⟩
          obtain ⟨hpool, hidx, hmark, hfree⟩ := mem_goodBlocks_iff_unmarked.mp hn
          refine mem_goodBlocks_iff_unmarked.mpr ⟨hpool, hpages.index ▸ hidx, ?_, hpages.bmt ▸ hfree⟩
          by_cases hni : n = c.systemBlockCount + i
          · rw [Unmarked, hni, nandEraseBmt_blank hok]
          · rwa [Unmarked, hpages.first hni]

theorem findAvailableBlock_stalling (hc : Counts c) (p deadline : ℕ)
    (hgood : goodBlocks c s ≠ ∅) :
    let f := findAvailableBlock c (stallingHost c p deadline) false s
    f.1 ≠ 0 ∧ f.2.tick ≤ s.tick + c.bmtBlockCount := by
  intro f
  have hsweep : goodBlocks c s ⊆ goodBlocks c f.2 ∧ f.2.tick ≤ s.tick + c.bmtBlockCount := by
    show goodBlocks c s ⊆ goodBlocks c (sweepPool c (stallingHost c p deadline) s).2 ∧
      (sweepPool c (stallingHost c p deadline) s).2.tick ≤ s.tick + c.bmtBlockCount
    unfold sweepPool
    split
    · exact ⟨fun _ h => h, Nat.le_add_right _ _⟩
    · have h := eraseUnmapped_stalling (c := c) p deadline (List.range c.bmtBlockCount) s
      rw [List.length_range] at h
      exact h
  refine ⟨fun hzero => hgood ?_, hsweep.2⟩
  have hempty := (findAvailableBlock_searched hc _ false s).none hzero
  exact Finset.subset_empty.mp (hempty ▸ hsweep.1)

/-- A write puts its source on the page, refused or not. -/
theorem nandWritePageBmt_stalling (p deadline page : ℕ) (dat : Option Buf) (s : St) :
    (nandWritePageBmt c (stallingHost c p deadline) page dat s).2.flash.page =
      Function.update s.flash.page page (pageSource c dat s.pageBuf) := by
  have hwrite : (stallingHost c p deadline).write s.tick page = .fail ∨
      (stallingHost c p deadline).write s.tick page = .ok := by
    unfold stallingHost
    dsimp only
    split
    · exact Or.inl rfl
    · exact Or.inr rfl
  unfold nandWritePageBmt nfcWritePage
  cases dat with
  | some dat => rcases hwrite with h | h <;> (rw [h]; rfl)
  | none => rcases hwrite with h | h <;> (rw [h]; rfl)

/-- What is written to the first page of a block has no mark. -/
theorem unmarked_update {n q : ℕ} {u : St} {buf : Buf} (h : Unmarked c s n)
    (hpage : u.flash.page = Function.update s.flash.page q buf) (hbuf : buf (badPos c) = 0xff) :
    Unmarked c u n := by
  unfold Unmarked firstPage at h ⊢
  rw [hpage]
  by_cases hq : n * c.pagePerBlock = q
  · rw [hq, Function.update_self, hbuf]
  · rwa [Function.update_of_ne hq]

theorem pageSource_mark (dat : Option Buf) (buf : Buf) :
    pageSource c dat buf (badPos c) = buf (badPos c) := by
  cases dat with
  | some dat => exact if_neg (by unfold badPos; omega)
  | none => rfl

theorem migrateOne_unmarked (p deadline n q : ℕ) (h : Unmarked c s n) :
    Unmarked c (migrateOne c (stallingHost c p deadline) b n q s).2 n := by
  unfold migrateOne
  dsimp only
  set u := (nandReadPageBmt c (stallingHost c p deadline) (c.pageAddr b + q) s).2 with hu
  split
  · have hwrite := nandWritePageBmt_stalling (c := c) p deadline (c.pageAddr n + q) none
      { u with pageBuf := copyPage c b u.pageBuf }
    have hmark : pageSource c none (copyPage c b u.pageBuf) (badPos c) = 0xff :=
      Function.update_self _ _ _
    split
    · exact unmarked_update (s := s) h hwrite hmark
    · exact unmarked_update (s := s) h hwrite hmark
  · exact h

theorem migratePages_unmarked (p deadline n : ℕ) (pages : List ℕ) (h : Unmarked c s n) :
    Unmarked c (migratePages c (stallingHost c p deadline) b e n pages s).2 n := by
  induction pages generalizing s with
  | nil => exact h
  | cons page pages ih =>
    rw [migratePages_cons]
    dsimp only
    split
    · exact ih h
    · split
      · exact ih (migrateOne_unmarked p deadline n page h)
      · exact migrateOne_unmarked p deadline n page h

/-- The loop stops at page p when it is in use and the deadline is far. -/
theorem migratePages_stalling {p deadline n : ℕ} (hne : b ≠ n) (pages : List ℕ)
    (hpages : ∀ q ∈ pages, q < c.pagePerBlock) (hmem : p ∈ pages) (hused : UsedOther c b e s p)
    (htick : s.tick + 3 * pages.length < deadline) :
    (migratePages c (stallingHost c p deadline) b e n pages s).1 = false := by
  induction pages generalizing s with
  | nil => exact absurd hmem List.not_mem_nil
  | cons page pages ih =>
    have hpage := hpages page List.mem_cons_self
    rw [List.length_cons] at htick
    have hrest : ∀ u : St, OnlyPages c n s u → u.tick ≤ s.tick + 3 → p ≠ page →
        (migratePages c (stallingHost c p deadline) b e n pages u).1 = false := by
      intro u honly hlate hpp
      refine ih (fun q hq => hpages q (List.mem_cons_of_mem _ hq))
        (List.mem_of_ne_of_mem hpp hmem) ((honly.sameBlock hne).usedOther.mpr hused) (by omega)
    rw [migratePages_cons]
    dsimp only
    by_cases hpe : page = e
    · rw [if_pos hpe]
      exact hrest s (OnlyPages.refl n s) (Nat.le_add_right _ _)
        fun hpp => hused.2.1 (hpp.trans hpe)
    rw [if_neg hpe]
    split
    · rename_i hone
      refine hrest _ (migrateOne_pages b hpage s) (migrateOne_tick n page s).2 ?_
      rintro rfl
      have hok := migrateOne_done (stallingHost_faithful c p deadline) hone hused.2.2
      have hrefused : (stallingHost c p deadline).write (s.tick + 1)
          (n * c.pagePerBlock + p) = .fail := by
        refine if_pos ⟨?_, by omega⟩
        rw [Nat.mul_comm, Nat.mul_add_mod, Nat.mod_eq_of_lt hpage]
      exact absurd (hok.symm.trans hrefused) (by decide)
    · rfl

/-- The target of an attempt is still good when its first page has no mark. -/
theorem good_of_unmarked {n : ℕ} (honly : OnlyPages c n s t) (hgood : n ∈ goodBlocks c s)
    (hmark : Unmarked c t n) : goodBlocks c t ≠ ∅ := by
  obtain ⟨hpool, hidx, _, hfree⟩ := mem_goodBlocks_iff_unmarked.mp hgood
  exact Finset.ne_empty_of_mem (mem_goodBlocks_iff_unmarked.mpr
    ⟨hpool, honly.index ▸ hidx, hmark, honly.bmt ▸ hfree⟩)

/-- The spare bytes of the page whose write failed carry no mark. -/
theorem indexed_mark (errorBlock : ℕ) (buf : Buf) : indexed c errorBlock
    (fun i => if c.pageSize ≤ i ∧ i < c.pageSize + maxOobSize then 0xff else buf i) (badPos c) =
      0xff := by
  have hpos : badPos c ≤ c.pageSize + 4 := by
    unfold badPos Conf.badBlockPos
    split <;> omega
  have hoob := (show 16 ≤ c.oobSize from oobSize_bounds.1)
  have hlow : c.pageSize ≤ badPos c := Nat.le_add_right _ _
  rw [indexed_cleared errorBlock buf hlow (by omega)]
  unfold indexed setBadIndexToOob oobIndexOffset
  split
  · have h14 : badPos c ≠ c.pageSize + 14 := by omega
    have h15 : badPos c ≠ c.pageSize + 14 + 1 := by omega
    simp only [h14, h15, if_false]
  · rfl

/-- An attempt on a controller that stalls finds a block, which stays good. -/
theorem migrateAttempt_blocks (hc : Counts c) (offset p deadline : ℕ) (hgood : goodBlocks c s ≠ ∅) :
    let r := migrateAttempt c (stallingHost c p deadline) offset none s
    (∀ n, r.1 = some n → n ≠ 0) ∧ (r.1 = none → goodBlocks c r.2 ≠ ∅) := by
  unfold migrateAttempt
  dsimp only
  set s0 : St := { s with pageBuf := _ } with hs0
  have hfound := (findAvailableBlock_stalling (s := s0) hc p deadline hgood).1
  have hsearch := findAvailableBlock_searched hc (stallingHost c p deadline) false s0
  have hbuf : (findAvailableBlock c (stallingHost c p deadline) false s0).2.pageBuf = s0.pageBuf := by
    show (sweepPool c (stallingHost c p deadline) s0).2.pageBuf = s0.pageBuf
    unfold sweepPool
    split
    · rfl
    · exact eraseUnmapped_pageBuf _ s0
  set f := findAvailableBlock c (stallingHost c p deadline) false s0 with hf
  have hin := hsearch.found hfound
  have hclean : Unmarked c f.2 f.1 := (mem_goodBlocks_iff_unmarked.mp hin).2.2.1
  rw [if_neg hfound]
  set t0 : St := { f.2 with pageBuf := _ } with ht0
  have hlt : offset / c.pageSize % c.pagePerBlock < c.pagePerBlock :=
    Nat.mod_lt _ pagePerBlock_pos
  set w := nandWritePageBmt c (stallingHost c p deadline)
    (c.pageAddr f.1 + offset / c.pageSize % c.pagePerBlock) none t0 with hw
  have hwrite : OnlyPages c f.1 f.2 w.2 :=
    { nandWritePageBmt_pages none t0 (page_block_add hlt) with }
  have hmark : Unmarked c w.2 f.1 := by
    refine unmarked_update (s := t0) hclean (nandWritePageBmt_stalling p deadline _ none t0) ?_
    rw [pageSource_mark]
    show indexed c _ f.2.pageBuf (badPos c) = 0xff
    rw [hbuf]
    exact indexed_mark _ s.pageBuf
  split
  · have hloop := migratePages_unmarked (b := offset / c.blockSize)
      (e := offset / c.pageSize % c.pagePerBlock) p deadline f.1 (List.range c.pagePerBlock) hmark
    have honly : OnlyPages c f.1 w.2 (migratePages c (stallingHost c p deadline)
        (offset / c.blockSize) (offset / c.pageSize % c.pagePerBlock) f.1
        (List.range c.pagePerBlock) w.2).2 :=
      migratePages_target _ _ _ (fun q hq => List.mem_range.mp hq) w.2
    refine ⟨fun n hn => ?_, fun _ => good_of_unmarked (hwrite.trans honly) hin hloop⟩
    dsimp only at hn
    split at hn
    · exact Option.some.inj hn ▸ hfound
    · cases hn
  · refine ⟨fun n hn => (by cases hn), fun _ => ?_⟩
    exact good_of_unmarked (hwrite.trans (markBlockBadBmt_offset_pages _ _)) hin hmark

/-- It either fills the block, or stops before the deadline with page p in the buffer. -/
theorem migrateAttempt_stalling (hc : Counts c) {offset p deadline : ℕ}
    (h : Spared c s (offset / c.blockSize)) (hgood : goodBlocks c s ≠ ∅)
    (hpe : p ≠ offset / c.pageSize % c.pagePerBlock) :
    let r := migrateAttempt c (stallingHost c p deadline) offset none s
    (∀ n, r.1 = some n → n ≠ 0) ∧
      (r.1 = none → goodBlocks c r.2 ≠ ∅ ∧ s.tick < deadline ∧
        SameData c r.2.pageBuf (blockPage c s (offset / c.blockSize) p)) := by
  have hattempt := migrateAttempt_data (stallingHost_faithful c p deadline) hc none h
  have hlt : offset / c.pageSize % c.pagePerBlock < c.pagePerBlock :=
    Nat.mod_lt _ pagePerBlock_pos
  obtain ⟨hsome, hnone⟩ := migrateAttempt_blocks hc offset p deadline hgood
  refine ⟨hsome, fun hres => ⟨hnone hres, ?_⟩⟩
  rcases hattempt.again hres with ⟨_, hrefused⟩ | ⟨q, hq, hleft, hrefused⟩
  · exact absurd (hrefused.stalling hlt).1.symm hpe
  · obtain ⟨rfl, htick⟩ := hrefused.stalling hq.1
    exact ⟨htick, hleft⟩

/-- An attempt stops when page p is in use and the deadline is far. -/
theorem migrateAttempt_stops (hc : Counts c) {offset p deadline : ℕ}
    (h : Spared c s (offset / c.blockSize)) (hgood : goodBlocks c s ≠ ∅)
    (hused : UsedOther c (offset / c.blockSize) (offset / c.pageSize % c.pagePerBlock) s p)
    (htick : s.tick + c.bmtBlockCount + 1 + 3 * c.pagePerBlock < deadline) :
    (migrateAttempt c (stallingHost c p deadline) offset none s).1 = none := by
  unfold migrateAttempt
  dsimp only
  set s0 : St := { s with pageBuf := _ } with hs0
  obtain ⟨hfound, hlate⟩ := findAvailableBlock_stalling (s := s0) hc p deadline hgood
  have hdata : FoundData c (offset / c.blockSize) s0
      (findAvailableBlock c (stallingHost c p deadline) false s0) :=
    findAvailableBlock_data hc _ false h
  set f := findAvailableBlock c (stallingHost c p deadline) false s0 with hf
  have hne := hdata.ne hfound
  rw [if_neg hfound]
  set t0 : St := { f.2 with pageBuf := _ } with ht0
  have hlt : offset / c.pageSize % c.pagePerBlock < c.pagePerBlock :=
    Nat.mod_lt _ pagePerBlock_pos
  set w := nandWritePageBmt c (stallingHost c p deadline)
    (c.pageAddr f.1 + offset / c.pageSize % c.pagePerBlock) none t0 with hw
  have hwrite : OnlyPages c f.1 f.2 w.2 :=
    { nandWritePageBmt_pages none t0 (page_block_add hlt) with }
  have hsame : SameBlock c (offset / c.blockSize) s w.2 :=
    hdata.same.trans (hwrite.sameBlock hne)
  have hlate' : w.2.tick ≤ s.tick + c.bmtBlockCount + 1 := by
    have hwritten : w.2.tick = f.2.tick + 1 := nandWritePageBmt_tick _ none t0
    have hsearch : f.2.tick ≤ s.tick + c.bmtBlockCount := hlate
    omega
  split
  · have hstop : (migratePages c (stallingHost c p deadline) (offset / c.blockSize)
        (offset / c.pageSize % c.pagePerBlock) f.1 (List.range c.pagePerBlock) w.2).1 = false := by
      refine migratePages_stalling hne _ (fun q hq => List.mem_range.mp hq)
        (List.mem_range.mpr hused.1) (hsame.usedOther.mpr hused) ?_
      rw [List.length_range]
      omega
    rw [hstop]
    rfl
  · rfl

/-- A failed attempt on a controller that stalls comes closer to the deadline. -/
theorem Stalled.again (hc : Counts c) {offset p deadline : ℕ} {d : Buf}
    (h : Stalled c (offset / c.blockSize) p d s) (hp : p < c.pagePerBlock)
    (hpe : p ≠ offset / c.pageSize % c.pagePerBlock)
    (hres : (migrateAttempt c (stallingHost c p deadline) offset none s).1 = none) :
    let t := (migrateAttempt c (stallingHost c p deadline) offset none s).2
    Stalled c (offset / c.blockSize) p d t ∧ deadline - t.tick < deadline - s.tick := by
  have hattempt := migrateAttempt_data (stallingHost_faithful c p deadline) hc none h.spared
  obtain ⟨hgood, htick, hleft⟩ := (migrateAttempt_stalling hc h.spared h.good hpe).2 hres
  have hlater := hattempt.later hres
  refine ⟨⟨hattempt.spared, hgood, hleft.trans h.page, ?_⟩, by omega⟩
  rw [hattempt.same.blockPage hp]
  exact h.page

/-- The attempts go on until the deadline, and the replacement gets the data in dat_buf. -/
theorem Stalled.run (hc : Counts c) {offset p : ℕ} (deadline : ℕ) {d : Buf}
    (h : Stalled c (offset / c.blockSize) p d s) (hp : p < c.pagePerBlock)
    (hpe : p ≠ offset / c.pageSize % c.pagePerBlock) :
    ∃ fuel n t, n ≠ 0 ∧
      migrateFromBad c (stallingHost c p deadline) fuel offset none s = (some n, t) ∧
      SameData c (blockPage c t n (offset / c.pageSize % c.pagePerBlock)) d := by
  have hdone : ∀ u n, Stalled c (offset / c.blockSize) p d u →
      (migrateAttempt c (stallingHost c p deadline) offset none u).1 = some n →
      n ≠ 0 ∧ SameData c (blockPage c
        (migrateAttempt c (stallingHost c p deadline) offset none u).2 n
        (offset / c.pageSize % c.pagePerBlock)) d := by
    intro u n hu hres
    have hne := (migrateAttempt_stalling hc hu.spared hu.good hpe).1 n hres
    have hattempt := migrateAttempt_data (stallingHost_faithful c p deadline) hc none hu.spared
    exact ⟨hne, (hattempt.done n hne hres).error.trans hu.buf⟩
  obtain ⟨n, t, hend, hrun⟩ := attempts_ends (R := fun _ n t => n ≠ 0 ∧
      SameData c (blockPage c t n (offset / c.pageSize % c.pagePerBlock)) d)
    (fun u => deadline - u.tick) hdone
    (fun u hu hres => ⟨(hu.again hc hp hpe hres).1, (hu.again hc hp hpe hres).2,
      fun _ _ hend => hend⟩) h
  refine ⟨deadline - s.tick + 1, n, t, hend.1, ?_, hend.2⟩
  rw [migrateFromBad_eq_attempts]
  exact hrun _ (Nat.lt_succ_self _)

/-- If every controller that stores what it reports preserves the data, the buffer fits. -/
theorem bufferFits_of_preserves (hc : Counts c) {offset : ℕ} {dat : Option Buf}
    (h : Spared c s (offset / c.blockSize))
    (hall : ∀ host fuel n t, Faithful host →
      migrateFromBad c host fuel offset dat s = (some n, t) → n ≠ 0 →
      Preserved c (offset / c.blockSize) (offset / c.pageSize % c.pagePerBlock) dat s n t) :
    BufferFits c (offset / c.blockSize) (offset / c.pageSize % c.pagePerBlock) dat s := by
  by_cases hgood : goodBlocks c s = ∅
  · exact Or.inr (Or.inl hgood)
  cases dat with
  | some d => exact Or.inl (Option.some_ne_none d)
  | none =>
    have hlt : offset / c.pageSize % c.pagePerBlock < c.pagePerBlock :=
      Nat.mod_lt _ pagePerBlock_pos
    refine Or.inr (Or.inr ⟨?_, fun p hused => ?_⟩)
    · -- a controller that refuses nothing: the first attempt fills a block
      have hpe : c.pagePerBlock ≠ offset / c.pageSize % c.pagePerBlock := by omega
      obtain ⟨hsome, hnone⟩ := @migrateAttempt_stalling c s hc offset c.pagePerBlock 0 h hgood hpe
      cases hres : (migrateAttempt c (stallingHost c c.pagePerBlock 0) offset none s).1 with
      | none => exact absurd (hnone hres).2.1 (Nat.not_lt_zero _)
      | some n =>
        have hne := hsome n hres
        have hfaith := stallingHost_faithful c c.pagePerBlock 0
        have hholds := (migrateAttempt_data hfaith hc none h).done n hne hres
        have hrun : migrateFromBad c (stallingHost c c.pagePerBlock 0) 1 offset none s =
            (some n, (migrateAttempt c (stallingHost c c.pagePerBlock 0) offset none s).2) := by
          rw [migrateFromBad_eq_attempts]
          exact attempts_done hres 0
        exact hholds.error.symm.trans (hall _ 1 n _ hfaith hrun hne).error
    · -- a controller that refuses the copy of page p in the first attempt
      obtain ⟨deadline, hfar⟩ :
          ∃ k, s.tick + c.bmtBlockCount + 1 + 3 * c.pagePerBlock < k := ⟨_, Nat.lt_succ_self _⟩
      have hfaith := stallingHost_faithful c p deadline
      have hstop := migrateAttempt_stops hc h hgood hused hfar
      have hattempt := migrateAttempt_data hfaith hc none h
      obtain ⟨hgood', _, hleft⟩ := (migrateAttempt_stalling hc h hgood hused.2.1).2 hstop
      have hstalled : Stalled c (offset / c.blockSize) p
          (blockPage c s (offset / c.blockSize) p)
          (migrateAttempt c (stallingHost c p deadline) offset none s).2 := by
        refine ⟨hattempt.spared, hgood', hleft, ?_⟩
        rw [hattempt.same.blockPage hused.1]
        exact SameData.refl _
      obtain ⟨fuel, n, t, hne, hrun, hgot⟩ := hstalled.run hc deadline hused.1 hused.2.1
      have hrun' : migrateFromBad c (stallingHost c p deadline) (fuel + 1) offset none s =
          (some n, t) := by
        rw [migrateFromBad_eq_attempts] at hrun ⊢
        rw [attempts_again hstop]
        exact hrun
      exact hgot.symm.trans (hall _ (fuel + 1) n t hfaith hrun' hne).error

/-- A chip whose table is in block 2047 and has not been swept yet. Page 1 of block 2045 is in
use, although the block is not mapped. -/
def unsweptPool : St :=
  { powerOn ⟨fun p i => if p = 2045 * 32 + 1 ∧ (i = 0 ∨ i = 512 + 14) then 0x11 else 0xff,
      fun _ => false⟩ with
    bmtBlockIndex := 2047 }

end Iot7688.Bmt
