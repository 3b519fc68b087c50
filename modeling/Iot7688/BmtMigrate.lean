import Iot7688.BmtPages

/-!
The pages that migrate_from_bad leaves in the replacement of a block. The block that
failed is one that the search for a replacement does not touch, so its pages can be
read from the state before the call.
-/
namespace Iot7688.Bmt

section

variable (c : Conf)

/-- Equal as far as a page reaches. -/
def SamePage (a b : Buf) : Prop := ∀ i, i < c.pageSize + c.oobSize → a i = b i

def blockPage (s : St) (block page : ℕ) : Buf := s.flash.page (block * c.pagePerBlock + page)

/-- What is written to the replacement for a page in use. -/
def copyPage (errorBlock : ℕ) (page : Buf) : Buf :=
  Function.update (indexed c errorBlock page) (badPos c) 0xff

/-- What a page of the failing block leaves in the buffer. -/
def copied (errorBlock : ℕ) (page : Buf) : Buf :=
  if isPageUsed c page then copyPage c errorBlock page else page

/-- The page whose write failed, with the data given and fresh spare bytes. -/
def errorPageImage (errorBlock : ℕ) (dat : Buf) : Buf := fun i =>
  if i < c.pageSize then dat i else indexed c errorBlock (fun _ => 0xff) i

/-- The body of the loop over the other pages. -/
def migrateOne (host : Host) (errorBlock toIndex page : ℕ) (s : St) : Bool × St :=
  let s := (nandReadPageBmt c host (c.pageAddr errorBlock + page) s).2
  if isPageUsed c s.pageBuf then
    let w := nandWritePageBmt c host (c.pageAddr toIndex + page) none
      { s with pageBuf := copyPage c errorBlock s.pageBuf }
    if w.1 then (true, w.2) else (false, markBlockBadBmt c host (c.offset toIndex) w.2)
  else (true, s)

end

variable {c : Conf} {host : Host} {Q : Buf → Prop}

theorem SamePage.refl (a : Buf) : SamePage c a a := fun _ _ => rfl

theorem isPageUsed_congr {a b : Buf} (h : SamePage c a b) : isPageUsed c a = isPageUsed c b := by
  have hoob := (show 16 ≤ c.oobSize from oobSize_bounds.1)
  have hecc : c.eccOffset ≤ 6 := by
    unfold Conf.eccOffset
    split <;> decide
  have hbyte (i : ℕ) (hi : i < 16) : a (c.pageSize + i) = b (c.pageSize + i) := h _ (by omega)
  unfold isPageUsed oobIndexOffset
  dsimp only
  rw [hbyte 14 (by omega), hbyte (14 + 1) (by omega), hbyte c.eccOffset (by omega),
    hbyte (c.eccOffset + 1) (by omega), hbyte (c.eccOffset + 2) (by omega)]

theorem indexed_congr (errorBlock : ℕ) {a b : Buf} {i : ℕ} (h : a i = b i) :
    indexed c errorBlock a i = indexed c errorBlock b i := by
  unfold indexed setBadIndexToOob
  split
  · dsimp only
    rw [h]
  · exact h

theorem copyPage_congr (errorBlock : ℕ) {a b : Buf} (h : SamePage c a b) :
    SamePage c (copyPage c errorBlock a) (copyPage c errorBlock b) := by
  intro i hi
  unfold copyPage Function.update
  dsimp only
  split
  · rfl
  · exact indexed_congr errorBlock (h i hi)

theorem migratePages_cons (errorBlock errorPage toIndex page : ℕ) (pages : List ℕ) (s : St) :
    migratePages c host errorBlock errorPage toIndex (page :: pages) s =
      if page = errorPage then migratePages c host errorBlock errorPage toIndex pages s
      else
        let r := migrateOne c host errorBlock toIndex page s
        if r.1 then migratePages c host errorBlock errorPage toIndex pages r.2
        else (false, r.2) := by
  rw [migratePages]
  unfold migrateOne
  dsimp only
  split
  · rfl
  · split
    · unfold copyPage
      split
      · rfl
      · rfl
    · rfl

/-- A page that is done. -/
structure CopiedOne (c : Conf) (errorBlock toIndex page : ℕ) (s t : St) : Prop where
  used : isPageUsed c (blockPage c s errorBlock page) = true →
    SamePage c (blockPage c t toIndex page) (copyPage c errorBlock (blockPage c s errorBlock page))
  others : ∀ p, (isPageUsed c (blockPage c s errorBlock page) = true →
    p ≠ toIndex * c.pagePerBlock + page) → t.flash.page p = s.flash.page p
  left : SamePage c t.pageBuf (copied c errorBlock (blockPage c s errorBlock page))

theorem migrateOne_pages (errorBlock : ℕ) {toIndex page : ℕ} (hpage : page < c.pagePerBlock)
    (s : St) : OnlyPages c toIndex s (migrateOne c host errorBlock toIndex page s).2 := by
  have hread : OnlyPages c toIndex s
      (nandReadPageBmt c host (c.pageAddr errorBlock + page) s).2 := nandReadPageBmt_pages _ _ s
  unfold migrateOne
  dsimp only
  set t := (nandReadPageBmt c host (c.pageAddr errorBlock + page) s).2
  split
  · have hwrite : OnlyPages c toIndex { t with pageBuf := copyPage c errorBlock t.pageBuf }
        (nandWritePageBmt c host (c.pageAddr toIndex + page) none
          { t with pageBuf := copyPage c errorBlock t.pageBuf }).2 :=
      nandWritePageBmt_pages none _ (page_block_add hpage)
    have hboth : OnlyPages c toIndex s (nandWritePageBmt c host (c.pageAddr toIndex + page) none
        { t with pageBuf := copyPage c errorBlock t.pageBuf }).2 :=
      hread.trans { hwrite with }
    split
    · exact hboth
    · exact hboth.trans (markBlockBadBmt_offset_pages _ _)
  · exact hread

theorem migrateOne_only (hmarks : MarksWork c host) (errorBlock : ℕ) {toIndex page : ℕ}
    (hto : c.systemBlockCount ≤ toIndex) (hpage : page < c.pagePerBlock) (s : St) :
    let r := migrateOne c host errorBlock toIndex page s
    OnlyPages c toIndex s r.2 ∧ (r.1 = false → bad c r.2.flash toIndex = true) := by
  refine ⟨migrateOne_pages errorBlock hpage s, ?_⟩
  unfold migrateOne
  dsimp only
  split
  · split
    · exact fun hfalse => by cases hfalse
    · exact fun _ => markBlockBadBmt_offset_bad hmarks hto
  · exact fun hfalse => by cases hfalse

theorem migrateOne_copied (hfaith : Faithful host) {errorBlock toIndex page : ℕ} {s : St}
    (h : (migrateOne c host errorBlock toIndex page s).1 = true) :
    CopiedOne c errorBlock toIndex page s (migrateOne c host errorBlock toIndex page s).2 := by
  have hread : SamePage c (nandReadPageBmt c host (c.pageAddr errorBlock + page) s).2.pageBuf
      (blockPage c s errorBlock page) := by
    intro i hi
    rw [nandReadPageBmt_pageBuf hfaith _ s hi, blockPage, pageAddr_eq]
  have hused := isPageUsed_congr hread
  unfold migrateOne at h ⊢
  dsimp only at h ⊢
  set t := (nandReadPageBmt c host (c.pageAddr errorBlock + page) s).2 with ht
  have hflash : t.flash = s.flash := rfl
  split
  · rename_i huse
    rw [if_pos huse] at h
    have hok : (nandWritePageBmt c host (c.pageAddr toIndex + page) none
        { t with pageBuf := copyPage c errorBlock t.pageBuf }).1 = true := by
      by_contra hno
      rw [if_neg hno] at h
      cases h
    rw [if_pos hok]
    obtain ⟨_, hstored, hothers, hbuf⟩ := nandWritePageBmt_stored hfaith hok
    rw [huse] at hused
    refine ⟨fun _ => ?_, fun p hp => hothers p ?_, ?_⟩
    · rw [blockPage, ← pageAddr_eq, hstored]
      exact copyPage_congr errorBlock hread
    · rw [pageAddr_eq]
      exact hp hused.symm
    · dsimp only
      rw [hbuf, copied, if_pos hused.symm]
      exact copyPage_congr errorBlock hread
  · rename_i hfree
    rw [Bool.not_eq_true] at hfree
    rw [hfree] at hused
    refine ⟨fun hpos => absurd (hused.trans hpos) (by simp), fun p _ => by rw [hflash], ?_⟩
    rw [copied, if_neg (by rw [← hused]; simp)]
    exact hread

/-- The first page of the failing block is one that the loop copies. -/
def MovesFirst (c : Conf) (errorBlock errorPage : ℕ) (s : St) : Prop :=
  0 ≠ errorPage ∧ isPageUsed c (firstPage c s errorBlock) = true

/-- The loop over the other pages, done. -/
structure CopiedPages (c : Conf) (errorBlock errorPage toIndex : ℕ) (pages : List ℕ) (s t : St) :
    Prop where
  copy : 0 ∈ pages → MovesFirst c errorBlock errorPage s →
    SamePage c (firstPage c t toIndex) (copyPage c errorBlock (firstPage c s errorBlock))
  same : (0 ∈ pages → ¬MovesFirst c errorBlock errorPage s) →
    firstPage c t toIndex = firstPage c s toIndex
  left : ∀ p ∈ pages, p ≠ errorPage → (∀ q ∈ pages, q ≠ errorPage → q ≤ p) →
    SamePage c t.pageBuf (copied c errorBlock (blockPage c s errorBlock p))

theorem OnlyPages.blockPage {block b page : ℕ} {s t : St} (h : OnlyPages c block s t) (hb : b ≠ block)
    (hpage : page < c.pagePerBlock) : blockPage c t b page = blockPage c s b page := by
  apply h.page
  rwa [← pageAddr_eq, page_block_add hpage]

theorem migratePages_target (errorBlock errorPage : ℕ) {toIndex : ℕ} (pages : List ℕ)
    (hpages : ∀ p ∈ pages, p < c.pagePerBlock) (s : St) :
    OnlyPages c toIndex s (migratePages c host errorBlock errorPage toIndex pages s).2 := by
  induction pages generalizing s with
  | nil => exact OnlyPages.refl _ s
  | cons page pages ih =>
    have hpages' : ∀ p ∈ pages, p < c.pagePerBlock := fun p hp =>
      hpages p (List.mem_cons_of_mem _ hp)
    have honly : OnlyPages c toIndex s (migrateOne c host errorBlock toIndex page s).2 :=
      migrateOne_pages errorBlock (hpages page List.mem_cons_self) s
    rw [migratePages_cons]
    dsimp only
    split
    · exact ih hpages' s
    · split
      · exact honly.trans (ih hpages' _)
      · exact honly

theorem migratePages_pages (hmarks : MarksWork c host) (errorBlock errorPage : ℕ) {toIndex : ℕ}
    (hto : c.systemBlockCount ≤ toIndex) (pages : List ℕ) (hpages : ∀ p ∈ pages, p < c.pagePerBlock)
    (s : St) :
    let r := migratePages c host errorBlock errorPage toIndex pages s
    OnlyPages c toIndex s r.2 ∧ (r.1 = false → bad c r.2.flash toIndex = true) :=
  ⟨migratePages_target errorBlock errorPage pages hpages s,
    (migratePages_only errorBlock errorPage (fun _ => markBlockBadBmt_offset_bad hmarks hto) pages
      hpages s).2⟩

theorem CopiedOne.first {errorBlock errorPage toIndex page : ℕ} {s t : St}
    (h : CopiedOne c errorBlock toIndex page s t) (hpage : page ≠ errorPage) :
    (page = 0 → MovesFirst c errorBlock errorPage s →
      SamePage c (firstPage c t toIndex) (copyPage c errorBlock (firstPage c s errorBlock))) ∧
    ((page = 0 → ¬MovesFirst c errorBlock errorPage s) →
      firstPage c t toIndex = firstPage c s toIndex) := by
  constructor
  · rintro rfl hmoves
    exact h.used hmoves.2
  · intro hnot
    refine h.others _ fun hused heq => ?_
    obtain rfl : page = 0 := by omega
    exact hnot rfl ⟨hpage, hused⟩

theorem migratePages_copied (hfaith : Faithful host) (hmarks : MarksWork c host)
    {errorBlock errorPage toIndex : ℕ} (hne : errorBlock ≠ toIndex)
    (hto : c.systemBlockCount ≤ toIndex) (pages : List ℕ) (hpages : ∀ p ∈ pages, p < c.pagePerBlock)
    (hsorted : pages.Pairwise (· < ·)) (s : St)
    (h : (migratePages c host errorBlock errorPage toIndex pages s).1 = true) :
    CopiedPages c errorBlock errorPage toIndex pages s
      (migratePages c host errorBlock errorPage toIndex pages s).2 ∧
    ((∀ p ∈ pages, p = errorPage) →
      migratePages c host errorBlock errorPage toIndex pages s = (true, s)) := by
  induction pages generalizing s with
  | nil => exact ⟨⟨by simp, fun _ => rfl, by simp⟩, fun _ => rfl⟩
  | cons page pages ih =>
    have hpages' : ∀ p ∈ pages, p < c.pagePerBlock := fun p hp =>
      hpages p (List.mem_cons_of_mem _ hp)
    obtain ⟨hbelow, hsorted'⟩ := List.pairwise_cons.mp hsorted
    rw [migratePages_cons] at h ⊢
    dsimp only at h ⊢
    by_cases hpage : page = errorPage
    · rw [if_pos hpage] at h ⊢
      obtain ⟨⟨hcopy, hsame, hleft⟩, hall⟩ := ih hpages' hsorted' s h
      have hzero (hmoves : MovesFirst c errorBlock errorPage s) : 0 ∈ page :: pages ↔ 0 ∈ pages := by
        rw [List.mem_cons, hpage]
        exact or_iff_right hmoves.1
      refine ⟨⟨fun h0 hmoves => hcopy ((hzero hmoves).mp h0) hmoves,
        fun hnot => hsame fun h0 => hnot (List.mem_cons_of_mem _ h0), ?_⟩,
        fun hrest => hall fun p hp => hrest p (List.mem_cons_of_mem _ hp)⟩
      intro p hp hpe hmax
      rcases List.mem_cons.mp hp with rfl | hp
      · exact absurd hpage hpe
      · exact hleft p hp hpe fun q hq => hmax q (List.mem_cons_of_mem _ hq)
    rw [if_neg hpage] at h ⊢
    by_cases hone : (migrateOne c host errorBlock toIndex page s).1 = true
    · rw [if_pos hone] at h ⊢
      have hlt := hpages page List.mem_cons_self
      have hcopied := migrateOne_copied hfaith hone
      have honly := (migrateOne_only hmarks errorBlock hto hlt s).1
      set t := (migrateOne c host errorBlock toIndex page s).2
      obtain ⟨⟨hcopy, hsame, hleft⟩, hall⟩ := ih hpages' hsorted' t h
      obtain ⟨hfirst, hother⟩ := hcopied.first hpage
      have hblock : firstPage c t errorBlock = firstPage c s errorBlock := honly.first hne
      have hmoves : MovesFirst c errorBlock errorPage t ↔ MovesFirst c errorBlock errorPage s := by
        rw [MovesFirst, MovesFirst, hblock]
      rw [hmoves] at hcopy hsame
      rw [hblock] at hcopy
      refine ⟨⟨fun h0 hm => ?_, fun hnot => ?_, ?_⟩,
        fun hrest => absurd (hrest page List.mem_cons_self) hpage⟩
      · rcases List.mem_cons.mp h0 with rfl | h0
        · rw [hsame fun h0 => absurd (hbelow 0 h0) (Nat.lt_irrefl 0)]
          exact hfirst rfl hm
        · exact hcopy h0 hm
      · rw [hsame fun h0 => hnot (List.mem_cons_of_mem _ h0)]
        exact hother fun h0 => hnot (h0 ▸ List.mem_cons_self)
      · intro p hp hpe hmax
        rcases List.mem_cons.mp hp with rfl | hp
        · -- no later page is read after the last one
          have hrest : ∀ q ∈ pages, q = errorPage := by
            intro q hq
            by_contra hqe
            have hle := hmax q (List.mem_cons_of_mem _ hq) hqe
            have := hbelow q hq
            omega
          rw [hall hrest]
          exact hcopied.left
        · rw [← honly.blockPage hne (hpages' p hp)]
          exact hleft p hp hpe fun q hq => hmax q (List.mem_cons_of_mem _ hq)
    · rw [if_neg hone] at h
      cases h

/-- The largest page other than the one that failed. -/
def IsLastOther (c : Conf) (errorPage p : ℕ) : Prop :=
  p < c.pagePerBlock ∧ p ≠ errorPage ∧ ∀ q, q < c.pagePerBlock → q ≠ errorPage → q ≤ p

/-- The first page of a replacement, and what the migration leaves in the buffer. -/
structure Landed (c : Conf) (Q : Buf → Prop) (errorBlock errorPage : ℕ) (dat : Option Buf) (n : ℕ)
    (s t : St) : Prop where
  image : errorPage = 0 → ∃ d, (∀ d', dat = some d' → d = d') ∧
    SamePage c (firstPage c t n) (errorPageImage c errorBlock d)
  copy : MovesFirst c errorBlock errorPage s →
    SamePage c (firstPage c t n) (copyPage c errorBlock (firstPage c s errorBlock))
  calm : errorPage ≠ 0 → ¬MovesFirst c errorBlock errorPage s →
    bad c t.flash n = false ∧ Q (firstPage c t n)
  left : ∀ p, IsLastOther c errorPage p →
    SamePage c t.pageBuf (copied c errorBlock (blockPage c s errorBlock p))

/-- What migrate_from_bad leaves of the pages. -/
structure MigratedPages (c : Conf) (Q : Buf → Prop) (errorBlock errorPage : ℕ) (dat : Option Buf)
    (s : St) (r : Option ℕ × St) : Prop where
  bmt : r.2.bmt = s.bmt
  index : r.2.bmtBlockIndex = s.bmtBlockIndex
  kept : ∀ p, Kept c s (p / c.pagePerBlock) → r.2.flash.page p = s.flash.page p
  done : ∀ n, r.1 = some n → r.2.poolErased = true ∧
    (∀ b, b ≠ n → Free c s b → Calm c Q r.2 b) ∧
    (n ≠ 0 → Free c s n ∧ Landed c Q errorBlock errorPage dat n s r.2)

theorem Kept.mono {s t : St} {b : ℕ} (hbmt : t.bmt = s.bmt)
    (hbad : bad c s.flash b = true → bad c t.flash b = true) (h : Kept c s b) : Kept c t b := by
  rcases h with hsys | hmapped | hmark
  · exact Or.inl hsys
  · exact Or.inr (Or.inl (hbmt ▸ hmapped))
  · exact Or.inr (Or.inr (hbad hmark))

/-- Another search after the block found has turned out bad. -/
theorem FoundPages.retry {s t : St} {r : ℕ × St} (h : FoundPages c Q s r) (hs : ReadyCalm c Q s)
    (hne : r.1 ≠ 0) (honly : OnlyPages c r.1 r.2 t) (hbad : bad c t.flash r.1 = true) :
    ReadyCalm c Q t ∧ t.bmt = s.bmt ∧ t.bmtBlockIndex = s.bmtBlockIndex ∧
      ∀ b, Kept c s b → Kept c t b ∧ ∀ p, p / c.pagePerBlock = b →
        t.flash.page p = s.flash.page p := by
  have hbmt := honly.bmt.trans h.bmt
  refine ⟨fun b hb => Or.inl ?_, hbmt, honly.index.trans h.index, fun b hb => ⟨?_, ?_⟩⟩
  · by_cases hb1 : b = r.1
    · rw [hb1]
      exact Or.inl hbad
    · exact honly.calm hb1 (h.free hs b (honly.free.mp hb))
  · refine hb.mono hbmt fun hmark => ?_
    rw [honly.bad (h.kept_ne hne hb)]
    exact bad_of_kept h.kept hmark
  · rintro p rfl
    rw [honly.page p (h.kept_ne hne hb), h.kept p hb]

theorem MigratedPages.of_retry {errorBlock errorPage : ℕ} {dat : Option Buf} {s t : St}
    {r : Option ℕ × St} (h : MigratedPages c Q errorBlock errorPage dat t r) (hbmt : t.bmt = s.bmt)
    (hindex : t.bmtBlockIndex = s.bmtBlockIndex) (herror : Kept c s errorBlock)
    (hkept : ∀ b, Kept c s b → Kept c t b ∧ ∀ p, p / c.pagePerBlock = b →
      t.flash.page p = s.flash.page p) : MigratedPages c Q errorBlock errorPage dat s r := by
  have hfree (b : ℕ) : Free c s b ↔ Free c t b := by rw [Free, Free, hbmt, hindex]
  have hfirst : firstPage c t errorBlock = firstPage c s errorBlock :=
    (hkept errorBlock herror).2 _ (page_block errorBlock)
  refine ⟨h.bmt.trans hbmt, h.index.trans hindex, fun p hp => ?_, fun n hn => ?_⟩
  · obtain ⟨hp', hpage⟩ := hkept _ hp
    rw [h.kept p hp', hpage p rfl]
  · obtain ⟨hswept, hcalm, hland⟩ := h.done n hn
    refine ⟨hswept, fun b hb hbfree => hcalm b hb ((hfree b).mp hbfree), fun hne => ?_⟩
    obtain ⟨hnfree, himage, hcopy, hrest, hleft⟩ := hland hne
    have hmoves : MovesFirst c errorBlock errorPage t ↔ MovesFirst c errorBlock errorPage s := by
      rw [MovesFirst, MovesFirst, hfirst]
    rw [hmoves] at hcopy hrest
    rw [hfirst] at hcopy
    refine ⟨(hfree n).mpr hnfree, himage, hcopy, hrest, fun p hp => ?_⟩
    have hpage : blockPage c t errorBlock p = blockPage c s errorBlock p :=
      (hkept errorBlock herror).2 _ (by rw [← pageAddr_eq, page_block_add hp.1])
    rw [← hpage]
    exact hleft p hp

theorem pageSource_image {errorBlock : ℕ} {buf : Buf} (dat : Option Buf)
    (hbuf : ∀ i, c.pageSize ≤ i → i < c.pageSize + c.oobSize →
      buf i = indexed c errorBlock (fun _ => 0xff) i) :
    ∃ d, (∀ d', dat = some d' → d = d') ∧
      SamePage c (pageSource c dat buf) (errorPageImage c errorBlock d) := by
  cases dat with
  | some d =>
    refine ⟨d, fun d' hd' => Option.some.inj hd', fun i hi => ?_⟩
    unfold pageSource errorPageImage
    dsimp only
    split
    · rfl
    · exact hbuf i (by omega) hi
  | none =>
    refine ⟨buf, fun d' hd' => (by cases hd'), fun i hi => ?_⟩
    unfold pageSource errorPageImage
    dsimp only
    split
    · rfl
    · exact hbuf i (by omega) hi

/-- The spare bytes that go to the error page of the replacement. -/
theorem indexed_cleared (errorBlock : ℕ) (buf : Buf) {i : ℕ} (hlow : c.pageSize ≤ i)
    (hi : i < c.pageSize + c.oobSize) :
    indexed c errorBlock
      (fun i => if c.pageSize ≤ i ∧ i < c.pageSize + maxOobSize then 0xff else buf i) i =
      indexed c errorBlock (fun _ => 0xff) i := by
  have hoob := (show c.oobSize ≤ maxOobSize from oobSize_bounds.2)
  apply indexed_congr
  rw [if_pos ⟨hlow, by omega⟩]

/-- A migration that is done, from the block found and the writes to it. -/
theorem FoundPages.landed {errorBlock errorPage : ℕ} {dat : Option Buf} {buf : Buf} {s w t : St}
    {r : ℕ × St} (h : FoundPages c Q s r) (hs : ReadyCalm c Q s) (hne : r.1 ≠ 0)
    (herror : Kept c s errorBlock)
    (hbuf : ∀ i, c.pageSize ≤ i → i < c.pageSize + c.oobSize →
      buf i = indexed c errorBlock (fun _ => 0xff) i)
    (honly : OnlyPages c r.1 r.2 w)
    (hstored : w.flash.page (r.1 * c.pagePerBlock + errorPage) = pageSource c dat buf)
    (hothers : ∀ p, p ≠ r.1 * c.pagePerBlock + errorPage → w.flash.page p = r.2.flash.page p)
    (hcopied : CopiedPages c errorBlock errorPage r.1 (List.range c.pagePerBlock) w t) :
    Landed c Q errorBlock errorPage dat r.1 s t := by
  have hpage {p : ℕ} (hp : p < c.pagePerBlock) :
      blockPage c w errorBlock p = blockPage c s errorBlock p := by
    rw [honly.blockPage (h.kept_ne hne herror) hp]
    exact h.kept _ (by rwa [← pageAddr_eq, page_block_add hp])
  have hfirst : firstPage c w errorBlock = firstPage c s errorBlock := hpage pagePerBlock_pos
  obtain ⟨hcopy, hsame, hleft⟩ := hcopied
  have hmoves : MovesFirst c errorBlock errorPage w ↔ MovesFirst c errorBlock errorPage s := by
    rw [MovesFirst, MovesFirst, hfirst]
  rw [hmoves] at hcopy hsame
  rw [hfirst] at hcopy
  refine ⟨?_, hcopy (List.mem_range.mpr pagePerBlock_pos), ?_, fun p hp => ?_⟩
  · rintro rfl
    rw [hsame fun _ hm => hm.1 rfl]
    have hwritten : firstPage c w r.1 = pageSource c dat buf := hstored
    rw [hwritten]
    exact pageSource_image dat hbuf
  · intro hpos hnot
    have hblank : firstPage c t r.1 = firstPage c r.2 r.1 := by
      rw [hsame fun _ => hnot]
      exact hothers _ (by omega)
    obtain ⟨hfree, hgood⟩ := h.found hne
    have hcalm := h.free hs r.1 ⟨hfree.1, h.index ▸ hfree.2.1, h.bmt ▸ hfree.2.2⟩
    rw [Calm, hgood] at hcalm
    rw [bad_firstPage, hblank, ← bad_firstPage]
    exact ⟨hgood, hcalm.resolve_left (by simp)⟩
  · rw [← hpage hp.1]
    exact hleft p (List.mem_range.mpr hp.1) hp.2.1 fun q hq => hp.2.2 q (List.mem_range.mp hq)

theorem migrateFromBad_pages (hfaith : Faithful host) (hQ : Q fun _ => 0xff)
    (hmarks : MarksWork c host) (hc : Counts c) (fuel : ℕ) {offset : ℕ} (dat : Option Buf) {s : St}
    (h : ReadyCalm c Q s) (herror : Kept c s (offset / c.blockSize)) :
    MigratedPages c Q (offset / c.blockSize) (offset / c.pageSize % c.pagePerBlock) dat s
      (migrateFromBad c host fuel offset dat s) := by
  induction fuel generalizing s with
  | zero => exact ⟨rfl, rfl, fun _ _ => rfl, fun n hn => by cases hn⟩
  | succ fuel ih =>
    rw [migrateFromBad]
    dsimp only
    set errorBlock := offset / c.blockSize
    set errorPage := offset / c.pageSize % c.pagePerBlock with hpageDef
    set s0 : St := { s with pageBuf := _ } with hs0
    have h0 : ReadyCalm c Q s0 := h
    have hfound := findAvailableBlock_pages hQ hmarks hc false s0
    set f := findAvailableBlock c host false s0
    have hkept : ∀ p, Kept c s (p / c.pagePerBlock) → f.2.flash.page p = s.flash.page p :=
      hfound.kept
    by_cases hnone : f.1 = 0
    · rw [if_pos hnone]
      refine ⟨hfound.bmt, hfound.index, hkept, fun n hn => ?_⟩
      obtain rfl := Option.some.inj hn
      refine ⟨hfound.swept, fun b _ hb => hfound.free h0 b ?_, fun hne => absurd rfl hne⟩
      exact ⟨hb.1, hfound.index ▸ hb.2.1, hfound.bmt ▸ hb.2.2⟩
    rw [if_neg hnone]
    have hbuf : ∀ i, c.pageSize ≤ i → i < c.pageSize + c.oobSize →
        indexed c errorBlock f.2.pageBuf i = indexed c errorBlock (fun _ => 0xff) i := by
      intro i hlow hi
      rw [hfound.pageBuf]
      exact indexed_cleared errorBlock s.pageBuf hlow hi
    set t0 : St := { f.2 with pageBuf := _ } with ht0
    have hlt : errorPage < c.pagePerBlock := Nat.mod_lt _ pagePerBlock_pos
    have hto : c.systemBlockCount ≤ f.1 := (hfound.found hnone).1.1.1
    have hwrite : OnlyPages c f.1 f.2
        (nandWritePageBmt c host (c.pageAddr f.1 + errorPage) dat t0).2 :=
      { nandWritePageBmt_pages dat t0 (page_block_add hlt) with }
    -- the search starts again once the block is marked bad
    have hretry : ∀ t, OnlyPages c f.1 f.2 t → bad c t.flash f.1 = true →
        MigratedPages c Q errorBlock errorPage dat s (migrateFromBad c host fuel offset dat t) := by
      intro t honly hbad
      obtain ⟨hready, hbmt, hindex, hkeeps⟩ := hfound.retry h0 hnone honly hbad
      exact (ih hready (hkeeps errorBlock herror).1).of_retry hbmt hindex herror hkeeps
    split
    · rename_i hok
      obtain ⟨_, hstored, hothers, _⟩ := nandWritePageBmt_stored hfaith hok
      set w := (nandWritePageBmt c host (c.pageAddr f.1 + errorPage) dat t0).2
      rw [pageAddr_eq] at hstored hothers
      obtain ⟨honly, hfail⟩ := migratePages_pages hmarks errorBlock errorPage hto
        (List.range c.pagePerBlock) (fun p hp => List.mem_range.mp hp) w
      have hboth := hwrite.trans honly
      split
      · rename_i hdone
        have hcopied := (migratePages_copied hfaith hmarks (hfound.kept_ne hnone herror) hto
          (List.range c.pagePerBlock) (fun p hp => List.mem_range.mp hp) List.pairwise_lt_range w
          hdone).1
        refine ⟨hboth.bmt.trans hfound.bmt, hboth.index.trans hfound.index, fun p hp => ?_,
          fun n hn => ?_⟩
        · rw [hboth.page p (hfound.kept_ne hnone hp), hkept p hp]
        · obtain rfl := Option.some.inj hn
          refine ⟨hboth.swept.trans hfound.swept, fun b hb hfree => hboth.calm hb (hfound.free h0 b
            ⟨hfree.1, hfound.index ▸ hfree.2.1, hfound.bmt ▸ hfree.2.2⟩),
            fun _ => ⟨(hfound.found hnone).1, ?_⟩⟩
          exact { hfound.landed h0 hnone herror hbuf hwrite hstored hothers hcopied with }
      · rename_i hfalse
        exact hretry _ hboth (hfail (by simpa using hfalse))
    · exact hretry _ (hwrite.trans (markBlockBadBmt_offset_pages _ _))
        (markBlockBadBmt_offset_bad hmarks hto)

end Iot7688.Bmt
