import Iot7688.BmtMigrate
import Iot7688.BmtRetry

/-!
The data that a migration brings to the replacement. The page whose write failed gets the
data of the caller, or what dat_buf holds when the attempt starts; the other pages in use are
copied. When a copy fails, dat_buf holds the page that was not written.
-/
namespace Iot7688.Bmt

section

variable (c : Conf)

/-- Equal in their data. -/
def SameData (a b : Buf) : Prop := ∀ i, i < c.pageSize → a i = b i

/-- The pages of the block have not changed. -/
def SameBlock (b : ℕ) (s t : St) : Prop :=
  ∀ p, p / c.pagePerBlock = b → t.flash.page p = s.flash.page p

/-- The block is neither erased nor handed out by a search. -/
def Spared (s : St) (b : ℕ) : Prop :=
  ¬InPool c b ∨ isBlockMapped s.bmt b ≠ none ∨ bad c s.flash b = true ∨
    b = s.bmtBlockIndex ∧ (s.poolErased = true ∨ b = c.systemBlockCount)

/-- A page in use other than the one that failed. -/
def UsedOther (b e : ℕ) (s : St) (p : ℕ) : Prop :=
  p < c.pagePerBlock ∧ p ≠ e ∧ isPageUsed c (blockPage c s b p) = true

/-- The pages of block b are in block n, with d in page e. -/
structure Holds (b e : ℕ) (d : Buf) (s : St) (n : ℕ) (t : St) : Prop where
  error : SameData c (blockPage c t n e) d
  used : ∀ p, UsedOther c b e s p → SameData c (blockPage c t n p) (blockPage c s b p)

/-- The data of block b has been preserved in block n. -/
def Preserved (b e : ℕ) (dat : Option Buf) (s : St) (n : ℕ) (t : St) : Prop :=
  Holds c b e (dat.getD (blockPage c s b e)) s n t

end

variable {c : Conf} {host : Host} {b e : ℕ} {s t : St}

theorem SameData.refl (a : Buf) : SameData c a a := fun _ _ => rfl

theorem SameData.symm {a d : Buf} (h : SameData c a d) : SameData c d a :=
  fun i hi => (h i hi).symm

theorem SameData.trans {a d f : Buf} (h : SameData c a d) (h' : SameData c d f) : SameData c a f :=
  fun i hi => (h i hi).trans (h' i hi)

theorem SamePage.data {a d : Buf} (h : SamePage c a d) : SameData c a d :=
  fun i hi => h i (Nat.lt_of_lt_of_le hi (Nat.le_add_right _ _))

/-- The index goes to the spare bytes. -/
theorem indexed_low (errorBlock : ℕ) (buf : Buf) {i : ℕ} (hi : i < c.pageSize) :
    indexed c errorBlock buf i = buf i := by
  unfold indexed setBadIndexToOob oobIndexOffset
  split
  · have h14 : i ≠ c.pageSize + 14 := by omega
    have h15 : i ≠ c.pageSize + 14 + 1 := by omega
    simp only [h14, h15, if_false]
  · rfl

theorem copyPage_data (errorBlock : ℕ) (page : Buf) :
    SameData c (copyPage c errorBlock page) page := by
  intro i hi
  have hpos : i ≠ badPos c := by
    unfold badPos
    omega
  rw [copyPage, Function.update_of_ne hpos]
  exact indexed_low errorBlock page hi

theorem SameBlock.trans {u : St} (h : SameBlock c b s t) (h' : SameBlock c b t u) :
    SameBlock c b s u := fun p hp => (h' p hp).trans (h p hp)

theorem SameBlock.blockPage (h : SameBlock c b s t) {p : ℕ} (hp : p < c.pagePerBlock) :
    blockPage c t b p = blockPage c s b p :=
  h _ (by rw [← pageAddr_eq, page_block_add hp])

theorem SameBlock.bad (h : SameBlock c b s t) : bad c t.flash b = bad c s.flash b :=
  bad_of_page_eq (h _ (page_block b))

theorem SameBlock.usedOther (h : SameBlock c b s t) {p : ℕ} :
    UsedOther c b e t p ↔ UsedOther c b e s p := by
  unfold UsedOther
  refine and_congr_right fun hp => ?_
  rw [h.blockPage hp]

theorem OnlyPages.sameBlock {block : ℕ} (h : OnlyPages c block s t) (hne : b ≠ block) :
    SameBlock c b s t := by
  intro p hp
  exact h.page p (by rw [hp]; exact hne)

theorem Spared.not_good (h : Spared c s b) : b ∉ goodBlocks c s := by
  intro hgood
  obtain ⟨hpool, hidx, hbad, hfree⟩ := mem_goodBlocks.mp hgood
  rcases h with hout | hmapped | hmark | ⟨htable, _⟩
  · exact hout hpool
  · exact hmapped hfree
  · exact absurd (hmark.symm.trans hbad) (by decide)
  · exact hidx htable

theorem Spared.of_sameBlock (h : Spared c s b) (hbmt : t.bmt = s.bmt)
    (hindex : t.bmtBlockIndex = s.bmtBlockIndex)
    (hswept : s.poolErased = true → t.poolErased = true) (hsame : SameBlock c b s t) :
    Spared c t b := by
  unfold Spared
  rw [hbmt, hindex, hsame.bad]
  rcases h with hout | hmapped | hmark | ⟨htable, hor⟩
  · exact Or.inl hout
  · exact Or.inr (Or.inl hmapped)
  · exact Or.inr (Or.inr (Or.inl hmark))
  · exact Or.inr (Or.inr (Or.inr ⟨htable, hor.imp_left hswept⟩))

theorem eraseUnmapped_pageBuf (is : List ℕ) (s : St) :
    (eraseUnmapped c host is s).2.pageBuf = s.pageBuf := by
  induction is generalizing s with
  | nil => rfl
  | cons i is ih =>
    rw [eraseUnmapped]
    dsimp only
    split
    · exact ih s
    · split
      · exact ih s
      · split
        · exact ih s
        · rw [ih]
          exact (eraseOrMark_pages c host (c.systemBlockCount + i) s).2

/-- The sweep leaves out blocks that are mapped or bad, and all of them when the table is in the
first block. -/
theorem eraseUnmapped_sameBlock (is : List ℕ) (his : ∀ i ∈ is, i < c.bmtBlockCount) (hc : Counts c)
    (s : St) (h : ¬InPool c b ∨ isBlockMapped s.bmt b ≠ none ∨ bad c s.flash b = true ∨
      s.bmtBlockIndex = c.systemBlockCount) : SameBlock c b s (eraseUnmapped c host is s).2 := by
  induction is generalizing s with
  | nil => exact fun _ _ => rfl
  | cons i is ih =>
    have his' : ∀ j ∈ is, j < c.bmtBlockCount := fun j hj => his j (List.mem_cons_of_mem _ hj)
    have hi := his i List.mem_cons_self
    have htotal := hc.total
    rw [eraseUnmapped]
    dsimp only
    by_cases hfirst : c.systemBlockCount = s.bmtBlockIndex
    · rw [if_pos hfirst]
      exact ih his' s h
    rw [if_neg hfirst]
    by_cases hbad : nandBlockBadBmt c s.flash (c.offset (c.systemBlockCount + i)) = true
    · rw [if_pos hbad]
      exact ih his' s h
    rw [if_neg hbad]
    split
    · exact ih his' s h
    · rename_i hfree
      have hne : b ≠ c.systemBlockCount + i := by
        rintro rfl
        rcases h with hout | hmapped | hmark | hindex
        · exact hout ⟨Nat.le_add_right _ _, by omega⟩
        · exact hfree (Option.isSome_iff_ne_none.mpr hmapped)
        · exact hbad hmark
        · exact hfirst hindex.symm
      have honly := (eraseOrMark_pages c host (c.systemBlockCount + i) s).1
      have hsame := honly.sameBlock hne
      refine hsame.trans (ih his' _ ?_)
      rw [honly.bmt, hsame.bad, honly.index]
      exact h

theorem eraseUnmapped_tick (is : List ℕ) (s : St) : s.tick ≤ (eraseUnmapped c host is s).2.tick := by
  induction is generalizing s with
  | nil => exact le_refl _
  | cons i is ih =>
    rw [eraseUnmapped]
    dsimp only
    split
    · exact ih s
    · split
      · exact ih s
      · split
        · exact ih s
        · exact (eraseOrMark_pages c host (c.systemBlockCount + i) s).1.tick.trans (ih _)

/-- What a search leaves of a block that it spares. -/
structure FoundData (c : Conf) (b : ℕ) (s : St) (r : ℕ × St) : Prop where
  same : SameBlock c b s r.2
  tick : s.tick ≤ r.2.tick
  pageBuf : r.2.pageBuf = s.pageBuf
  spared : Spared c r.2 b
  ne : r.1 ≠ 0 → b ≠ r.1

theorem findAvailableBlock_data (hc : Counts c) (host : Host) (startFromEnd : Bool)
    (h : Spared c s b) : FoundData c b s (findAvailableBlock c host startFromEnd s) := by
  have hsearch := findAvailableBlock_searched hc host startFromEnd s
  have hsweep : SameBlock c b s (sweepPool c host s).2 ∧ s.tick ≤ (sweepPool c host s).2.tick ∧
      (sweepPool c host s).2.pageBuf = s.pageBuf ∧ (sweepPool c host s).2.poolErased = true := by
    unfold sweepPool
    cases hpe : s.poolErased with
    | true => exact ⟨fun _ _ => rfl, le_refl _, rfl, hpe⟩
    | false =>
      rw [Spared, hpe] at h
      refine ⟨eraseUnmapped_sameBlock (List.range c.bmtBlockCount)
        (fun i hi => List.mem_range.mp hi) hc s ?_, eraseUnmapped_tick _ s,
        eraseUnmapped_pageBuf _ s, rfl⟩
      rcases h with hout | hmapped | hmark | ⟨htable, hor⟩
      · exact Or.inl hout
      · exact Or.inr (Or.inl hmapped)
      · exact Or.inr (Or.inr (Or.inl hmark))
      · exact Or.inr (Or.inr (Or.inr (htable.symm.trans (hor.resolve_left (by decide)))))
  have hspared : Spared c (findAvailableBlock c host startFromEnd s).2 b :=
    h.of_sameBlock hsearch.bmt hsearch.index (fun _ => hsweep.2.2.2) hsweep.1
  refine ⟨hsweep.1, hsweep.2.1, hsweep.2.2.1, hspared, fun hne => ?_⟩
  rintro rfl
  exact hspared.not_good (hsearch.found hne)

theorem nandWritePageBmt_fst (page : ℕ) (dat : Option Buf) (s : St) :
    (nandWritePageBmt c host page dat s).1 = true ↔ host.write s.tick page = .ok := by
  unfold nandWritePageBmt nfcWritePage
  cases dat with
  | some dat => cases host.write s.tick page <;> simp
  | none => cases host.write s.tick page <;> simp

theorem nandWritePageBmt_tick (page : ℕ) (dat : Option Buf) (s : St) :
    (nandWritePageBmt c host page dat s).2.tick = s.tick + 1 := by
  unfold nandWritePageBmt nfcWritePage
  cases dat with
  | some dat => cases host.write s.tick page <;> rfl
  | none => cases host.write s.tick page <;> rfl

/-- A write leaves the data in the buffer. -/
theorem nandWritePageBmt_data (page : ℕ) (dat : Option Buf) (s : St) :
    SameData c (nandWritePageBmt c host page dat s).2.pageBuf s.pageBuf := by
  cases dat with
  | some dat =>
    have hsame : (nandWritePageBmt c host page (some dat) s).2.pageBuf = s.pageBuf := by
      unfold nandWritePageBmt nfcWritePage
      cases host.write s.tick page <;> rfl
    rw [hsame]
    exact SameData.refl _
  | none =>
    rcases @nandWritePageBmt_buffer c host page s with hsame | ⟨hspoiled, _⟩
    · rw [hsame]
      exact SameData.refl _
    · rw [hspoiled]
      intro i hi
      refine Function.update_of_ne ?_ _ _
      unfold badPos
      omega

theorem nandReadPageBmt_same (hfaith : Faithful host) (b p : ℕ) (s : St) :
    SamePage c (nandReadPageBmt c host (c.pageAddr b + p) s).2.pageBuf (blockPage c s b p) := by
  intro i hi
  rw [nandReadPageBmt_pageBuf hfaith _ s hi, blockPage, pageAddr_eq]

/-- A copy that fails leaves the page that it read in the buffer. -/
theorem migrateOne_failed (hfaith : Faithful host) {n p : ℕ}
    (h : (migrateOne c host b n p s).1 = false) :
    isPageUsed c (blockPage c s b p) = true ∧
      SameData c (migrateOne c host b n p s).2.pageBuf (blockPage c s b p) ∧
      host.write (s.tick + 1) (n * c.pagePerBlock + p) ≠ .ok := by
  have hread := nandReadPageBmt_same (c := c) hfaith b p s
  unfold migrateOne at h ⊢
  dsimp only at h ⊢
  set t := (nandReadPageBmt c host (c.pageAddr b + p) s).2 with ht
  have htick : t.tick = s.tick + 1 := rfl
  by_cases hused : isPageUsed c t.pageBuf = true
  · rw [if_pos hused] at h ⊢
    have hno : ¬(nandWritePageBmt c host (c.pageAddr n + p) none
        { t with pageBuf := copyPage c b t.pageBuf }).1 = true := by
      intro hok
      rw [if_pos hok] at h
      cases h
    rw [if_neg hno]
    refine ⟨(isPageUsed_congr hread).symm.trans hused, ?_, ?_⟩
    · exact (nandWritePageBmt_data _ none _).trans ((copyPage_data b _).trans hread.data)
    · rw [nandWritePageBmt_fst, htick, pageAddr_eq] at hno
      exact hno
  · rw [if_neg hused] at h
    cases h

theorem migrateOne_done (hfaith : Faithful host) {n p : ℕ}
    (h : (migrateOne c host b n p s).1 = true) (hused : isPageUsed c (blockPage c s b p) = true) :
    host.write (s.tick + 1) (n * c.pagePerBlock + p) = .ok := by
  have hread := nandReadPageBmt_same (c := c) hfaith b p s
  rw [← isPageUsed_congr hread] at hused
  unfold migrateOne at h
  dsimp only at h
  rw [if_pos hused] at h
  by_contra hno
  rw [if_neg] at h
  · cases h
  · rw [nandWritePageBmt_fst, pageAddr_eq n]
    exact hno

theorem migrateOne_tick (n p : ℕ) (s : St) :
    s.tick < (migrateOne c host b n p s).2.tick ∧
      (migrateOne c host b n p s).2.tick ≤ s.tick + 3 := by
  unfold migrateOne
  dsimp only
  set t := (nandReadPageBmt c host (c.pageAddr b + p) s).2 with ht
  have htick : t.tick = s.tick + 1 := rfl
  have hwrite := @nandWritePageBmt_tick c host (c.pageAddr n + p) none
    { t with pageBuf := copyPage c b t.pageBuf }
  dsimp only at hwrite
  split
  · split
    · dsimp only
      omega
    · show s.tick < (nandWritePageBmt c host (c.pageAddr n + p) none
        { t with pageBuf := copyPage c b t.pageBuf }).2.tick + 1 ∧ _ + 1 ≤ s.tick + 3
      omega
  · dsimp only
    omega

/-- The loop over the other pages: what it has copied, or where it has stopped. -/
structure LoopData (c : Conf) (host : Host) (b e n : ℕ) (pages : List ℕ) (s : St)
    (r : Bool × St) : Prop where
  only : OnlyPages c n s r.2
  used : r.1 = true → ∀ p ∈ pages, UsedOther c b e s p →
    SameData c (blockPage c r.2 n p) (blockPage c s b p)
  others : r.1 = true → ∀ p, p ∉ pages ∨ p = e → blockPage c r.2 n p = blockPage c s n p
  failed : r.1 = false → ∃ p ∈ pages, UsedOther c b e s p ∧
    SameData c r.2.pageBuf (blockPage c s b p) ∧
    ∃ tick, s.tick ≤ tick ∧ host.write tick (n * c.pagePerBlock + p) ≠ .ok

theorem LoopData.skip {n page : ℕ} {pages : List ℕ} {r : Bool × St}
    (h : LoopData c host b e n pages s r) (hpage : page = e) :
    LoopData c host b e n (page :: pages) s r where
  only := h.only
  used := by
    intro hdone p hp hused
    rcases List.mem_cons.mp hp with rfl | hp
    · exact absurd hpage hused.2.1
    · exact h.used hdone p hp hused
  others := fun hdone p hp => h.others hdone p
    (hp.imp_left fun hnot hmem => hnot (List.mem_cons_of_mem _ hmem))
  failed := by
    intro hfalse
    obtain ⟨p, hp, hrest⟩ := h.failed hfalse
    exact ⟨p, List.mem_cons_of_mem _ hp, hrest⟩

theorem LoopData.copy {n page : ℕ} {pages : List ℕ} {r : Bool × St} (hne : b ≠ n)
    (hpage : page < c.pagePerBlock) (hpe : page ≠ e) (hnot : page ∉ pages)
    (honly : OnlyPages c n s t) (hcopied : CopiedOne c b n page s t) (htick : s.tick ≤ t.tick)
    (h : LoopData c host b e n pages t r) : LoopData c host b e n (page :: pages) s r where
  only := honly.trans h.only
  used := by
    intro hdone p hp hused
    rcases List.mem_cons.mp hp with rfl | hp
    · rw [h.others hdone p (Or.inl hnot)]
      exact (hcopied.used hused.2.2).data.trans (copyPage_data b _)
    · have hsame := honly.sameBlock hne
      rw [← hsame.blockPage hused.1]
      exact h.used hdone p hp (hsame.usedOther.mpr hused)
  others := by
    intro hdone p hp
    have hpp : p ≠ page := by
      rcases hp with hnot | rfl
      · exact fun heq => hnot (heq ▸ List.mem_cons_self)
      · exact hpe.symm
    rw [h.others hdone p (hp.imp_left fun hnot hmem => hnot (List.mem_cons_of_mem _ hmem))]
    exact hcopied.others _ fun _ => by omega
  failed := by
    intro hfalse
    obtain ⟨p, hp, hused, hbuf, tick, hle, hwrite⟩ := h.failed hfalse
    have hsame := honly.sameBlock hne
    rw [hsame.blockPage hused.1] at hbuf
    exact ⟨p, List.mem_cons_of_mem _ hp, hsame.usedOther.mp hused, hbuf, tick, htick.trans hle,
      hwrite⟩

theorem migratePages_data (hfaith : Faithful host) {n : ℕ} (hne : b ≠ n) (pages : List ℕ)
    (hpages : ∀ p ∈ pages, p < c.pagePerBlock) (hnodup : pages.Nodup) (s : St) :
    LoopData c host b e n pages s (migratePages c host b e n pages s) := by
  induction pages generalizing s with
  | nil =>
    exact ⟨OnlyPages.refl n s, fun _ p hp => absurd hp List.not_mem_nil, fun _ _ _ => rfl,
      fun hfalse => (by cases hfalse)⟩
  | cons page pages ih =>
    have hpages' : ∀ p ∈ pages, p < c.pagePerBlock := fun p hp =>
      hpages p (List.mem_cons_of_mem _ hp)
    have hpage := hpages page List.mem_cons_self
    obtain ⟨hnot, hnodup'⟩ := List.nodup_cons.mp hnodup
    rw [migratePages_cons]
    by_cases hpe : page = e
    · rw [if_pos hpe]
      exact (ih hpages' hnodup' s).skip hpe
    rw [if_neg hpe]
    dsimp only
    have honly : OnlyPages c n s (migrateOne c host b n page s).2 := migrateOne_pages b hpage s
    by_cases hone : (migrateOne c host b n page s).1 = true
    · rw [if_pos hone]
      exact (ih hpages' hnodup' _).copy hne hpage hpe hnot honly (migrateOne_copied hfaith hone)
        (le_of_lt (migrateOne_tick n page s).1)
    · rw [if_neg hone]
      rw [Bool.not_eq_true] at hone
      obtain ⟨hused, hbuf, hwrite⟩ := migrateOne_failed hfaith hone
      refine ⟨honly, fun hdone => (by cases hdone), fun hdone => (by cases hdone), fun _ => ?_⟩
      exact ⟨page, List.mem_cons_self, ⟨hpage, hpe, hused⟩, hbuf, s.tick + 1, Nat.le_succ _, hwrite⟩

/-- The data of the page whose write failed. -/
theorem pageSource_data (dat : Option Buf) {buf old : Buf} (h : SameData c buf old) :
    SameData c (pageSource c dat buf) (dat.getD old) := by
  intro i hi
  cases dat with
  | some d => exact if_pos hi
  | none => exact h i hi

/-- A write of page p has failed, not before the given time. -/
def Refused (c : Conf) (host : Host) (start p : ℕ) : Prop :=
  ∃ n tick, start ≤ tick ∧ host.write tick (n * c.pagePerBlock + p) ≠ .ok

/-- One attempt of a migration from a block that the search spares. -/
structure AttemptData (c : Conf) (host : Host) (b e : ℕ) (dat : Option Buf) (s : St)
    (r : Option ℕ × St) : Prop where
  same : SameBlock c b s r.2
  tick : s.tick ≤ r.2.tick
  spared : Spared c r.2 b
  done : ∀ n, n ≠ 0 → r.1 = some n → Holds c b e (dat.getD s.pageBuf) s n r.2
  later : r.1 = none → s.tick < r.2.tick
  again : r.1 = none → (SameData c r.2.pageBuf s.pageBuf ∧ Refused c host s.tick e) ∨
    ∃ p, UsedOther c b e s p ∧ SameData c r.2.pageBuf (blockPage c s b p) ∧
      Refused c host s.tick p

theorem migrateAttempt_data (hfaith : Faithful host) (hc : Counts c) {offset : ℕ}
    (dat : Option Buf) (h : Spared c s (offset / c.blockSize)) :
    AttemptData c host (offset / c.blockSize) (offset / c.pageSize % c.pagePerBlock) dat s
      (migrateAttempt c host offset dat s) := by
  unfold migrateAttempt
  dsimp only
  set b := offset / c.blockSize
  set e := offset / c.pageSize % c.pagePerBlock with he
  have hlt : e < c.pagePerBlock := Nat.mod_lt _ pagePerBlock_pos
  set s0 : St := { s with pageBuf := _ } with hs0
  have hfound : FoundData c b s0 (findAvailableBlock c host false s0) :=
    findAvailableBlock_data hc host false h
  set f := findAvailableBlock c host false s0 with hf
  have hsame : SameBlock c b s f.2 := hfound.same
  have htick : s.tick ≤ f.2.tick := hfound.tick
  by_cases hnone : f.1 = 0
  · rw [if_pos hnone]
    exact ⟨hsame, htick, hfound.spared, fun n hn hzero => absurd (Option.some.inj hzero).symm hn,
      fun hn => (by cases hn), fun hn => (by cases hn)⟩
  rw [if_neg hnone]
  have hne := hfound.ne hnone
  -- the index and the 0xff go to the spare bytes
  have hbuf : SameData c (indexed c b f.2.pageBuf) s.pageBuf := by
    intro i hi
    rw [indexed_low b f.2.pageBuf hi, hfound.pageBuf]
    exact if_neg (by omega)
  set t0 : St := { f.2 with pageBuf := _ } with ht0
  have hwrite : OnlyPages c f.1 f.2 (nandWritePageBmt c host (c.pageAddr f.1 + e) dat t0).2 :=
    { nandWritePageBmt_pages dat t0 (page_block_add hlt) with }
  have hwritten : (nandWritePageBmt c host (c.pageAddr f.1 + e) dat t0).2.tick = f.2.tick + 1 :=
    nandWritePageBmt_tick _ dat t0
  have hdata : SameData c (nandWritePageBmt c host (c.pageAddr f.1 + e) dat t0).2.pageBuf
      s.pageBuf := (nandWritePageBmt_data _ dat t0).trans hbuf
  by_cases hok : (nandWritePageBmt c host (c.pageAddr f.1 + e) dat t0).1 = true
  · rw [if_pos hok]
    obtain ⟨_, hstored, _, _⟩ := nandWritePageBmt_stored hfaith hok
    set w := (nandWritePageBmt c host (c.pageAddr f.1 + e) dat t0).2 with hw
    have hloop := migratePages_data (e := e) hfaith hne (List.range c.pagePerBlock)
      (fun p hp => List.mem_range.mp hp) List.nodup_range w
    set m := migratePages c host b e f.1 (List.range c.pagePerBlock) w with hm
    have hsameW : SameBlock c b s w := hsame.trans (hwrite.sameBlock hne)
    have hboth := hwrite.trans hloop.only
    refine ⟨hsame.trans (hboth.sameBlock hne), htick.trans hboth.tick, ?_, ?_, fun _ => ?_, ?_⟩
    · exact hfound.spared.of_sameBlock hboth.bmt hboth.index (fun hpe => hboth.swept.trans hpe)
        (hboth.sameBlock hne)
    · intro n hn hres
      cases hdone : m.1 with
      | false =>
        rw [hdone] at hres
        cases hres
      | true =>
        rw [hdone] at hres
        obtain rfl := Option.some.inj hres
        refine ⟨?_, fun p hp => ?_⟩
        · rw [hloop.others hdone e (Or.inr rfl)]
          rw [pageAddr_eq] at hstored
          show SameData c (w.flash.page (f.1 * c.pagePerBlock + e)) _
          rw [hstored]
          exact pageSource_data dat hbuf
        · rw [← hsameW.blockPage hp.1]
          exact hloop.used hdone p (List.mem_range.mpr hp.1) (hsameW.usedOther.mpr hp)
    · have hlater := hloop.only.tick
      show s.tick < m.2.tick
      omega
    · intro hres
      cases hdone : m.1 with
      | true =>
        rw [hdone] at hres
        cases hres
      | false =>
        obtain ⟨p, _, hused, hleft, tick, hle, hfail⟩ := hloop.failed hdone
        rw [hsameW.blockPage hused.1] at hleft
        exact Or.inr ⟨p, hsameW.usedOther.mp hused, hleft, f.1, tick,
          htick.trans (hwrite.tick.trans hle), hfail⟩
  · rw [if_neg hok]
    have hmark := hwrite.trans (@markBlockBadBmt_offset_pages c host f.1 _)
    refine ⟨hsame.trans (hmark.sameBlock hne), htick.trans hmark.tick, ?_,
      fun n _ hres => (by cases hres), fun _ => ?_,
      fun _ => Or.inl ⟨hdata, f.1, t0.tick, htick, ?_⟩⟩
    · exact hfound.spared.of_sameBlock hmark.bmt hmark.index (fun hpe => hmark.swept.trans hpe)
        (hmark.sameBlock hne)
    · show s.tick < (nandWritePageBmt c host (c.pageAddr f.1 + e) dat t0).2.tick + 1
      omega
    · rw [nandWritePageBmt_fst, pageAddr_eq] at hok
      exact hok

end Iot7688.Bmt
