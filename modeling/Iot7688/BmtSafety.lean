import Iot7688.Bmt
import Mathlib.Order.Interval.Finset.Nat

/-!
Safety of the block pool. Blocks that are neither bad nor mapped nor hold the
table are erased once the pool has been swept; find_available_block hands out
only such blocks. Between its calls a block handed out is written, and it is
mapped or marked bad before the next call.
-/
namespace Iot7688.Bmt

section

variable (c : Conf)

/-- The block is marked bad. -/
def bad (flash : Flash) (block : ℕ) : Bool := nandBlockBadBmt c flash (c.offset block)

def InPool (block : ℕ) : Prop := c.systemBlockCount ≤ block ∧ block < c.totalBlockCount

/-- The property of a call of find_available_block. -/
def SafeCall (call : FindCall) : Prop :=
  (∀ b ∈ call.erases, b ≠ call.bmtBlockIndex ∧ isBlockMapped call.bmt b = none) ∧
  (call.ret ≠ 0 → InPool c call.ret ∧ bad c call.flash call.ret = false ∧
    isBlockMapped call.bmt call.ret = none ∧ call.ret ≠ call.bmtBlockIndex ∧
    call.flash.erased call.ret = true)

def AllSafe (s : St) : Prop := ∀ call ∈ s.calls, SafeCall c call

/-- Bad marks of blocks of the pool take effect. -/
def MarksWork (host : Host) : Prop :=
  ∀ tick page, c.systemBlockCount * c.pagePerBlock ≤ page → host.markOk tick page = true

/-- Blocks but one that are free are erased. -/
def FreeErasedBut (except : ℕ) (s : St) : Prop :=
  ∀ b, b ≠ except → InPool c b → bad c s.flash b = false → isBlockMapped s.bmt b = none →
    b ≠ s.bmtBlockIndex → s.flash.erased b = true

def FreeErased (s : St) : Prop :=
  ∀ b, InPool c b → bad c s.flash b = false → isBlockMapped s.bmt b = none →
    b ≠ s.bmtBlockIndex → s.flash.erased b = true

/-- A step that touches the flash in one block only. -/
structure OnlyBlock (block : ℕ) (s s' : St) : Prop where
  bmt : s'.bmt = s.bmt
  index : s'.bmtBlockIndex = s.bmtBlockIndex
  swept : s'.poolErased = s.poolErased
  calls : s'.calls = s.calls
  bad : ∀ b, b ≠ block → bad c s'.flash b = bad c s.flash b
  erased : ∀ b, b ≠ block → s'.flash.erased b = s.flash.erased b

end

variable {c : Conf} {host : Host}

theorem conf_counts (h0 : 0 < c.bmtBlockCount) (h : c.bmtBlockCount < maxBmtSize) :
    0 < c.systemBlockCount ∧ c.systemBlockCount + c.bmtBlockCount = c.totalBlockCount ∧
      c.totalBlockCount ≤ 2 ^ 16 := by
  have htotal : 2 ^ 10 ≤ c.totalBlockCount ∧ c.totalBlockCount ≤ 2 ^ 16 := by
    unfold Conf.totalBlockCount Conf.chipSizeBit Conf.nandAddrlen Conf.pageSizeBit
      Conf.numpagePerBlockBit Conf.isNandPage2048
    by_cases h1 : c.chipMode = 1
    · simp [h1, Conf.nandSizeMap]
    · by_cases h11 : c.chipMode = 11
      · simp [h11, Conf.nandSizeMap]
      · by_cases h10 : c.chipMode = 10
        · simp [h10, Conf.nandSizeMap]
        · have hsmall : (c.chipMode == 1 || c.chipMode == 11) = false := by simp [h1, h11]
          simp [hsmall, h10, Conf.nandSizeMap]
  unfold maxBmtSize at h
  unfold Conf.systemBlockCount
  omega

theorem pagePerBlock_pos : 0 < c.pagePerBlock := Nat.two_pow_pos _

theorem oobSize_bounds : 16 ≤ c.oobSize ∧ c.oobSize ≤ maxOobSize := by
  unfold Conf.oobSize Conf.oobsizePerPageBit
  split <;> decide

theorem blockSize_eq : c.blockSize = c.pagePerBlock * c.pageSize := Nat.pow_add ..

theorem offset_page (block : ℕ) : c.offset block >>> c.pageSizeBit = block * c.pagePerBlock := by
  rw [Nat.shiftRight_eq_div_pow, Conf.offset, blockSize_eq, ← Nat.mul_assoc]
  exact Nat.mul_div_cancel _ (Nat.two_pow_pos _)

theorem pageAddr_eq (block : ℕ) : c.pageAddr block = block * c.pagePerBlock := by
  rw [← offset_page, Nat.shiftRight_eq_div_pow]
  rfl

theorem page_block (block : ℕ) : block * c.pagePerBlock / c.pagePerBlock = block :=
  Nat.mul_div_cancel _ pagePerBlock_pos

theorem page_block_add {block page : ℕ} (h : page < c.pagePerBlock) :
    (c.pageAddr block + page) / c.pagePerBlock = block := by
  rw [pageAddr_eq, Nat.mul_comm, Nat.mul_add_div pagePerBlock_pos, Nat.div_eq_of_lt h,
    Nat.add_zero]

theorem offset_block (offset : ℕ) :
    (offset >>> c.pageSizeBit) / c.pagePerBlock = offset / c.blockSize := by
  rw [Nat.shiftRight_eq_div_pow, Nat.div_div_eq_div_mul, blockSize_eq, Nat.mul_comm]
  rfl

theorem bad_eq (flash : Flash) (block : ℕ) :
    bad c flash block = (flash.page (block * c.pagePerBlock) (badPos c) != 0xff) := by
  rw [bad, nandBlockBadBmt, offset_page]

/-- Changing pages of one block changes the mark of that block only. -/
theorem bad_of_page_eq {flash flash' : Flash} {block : ℕ}
    (h : flash'.page (block * c.pagePerBlock) = flash.page (block * c.pagePerBlock)) :
    bad c flash' block = bad c flash block := by
  rw [bad_eq, bad_eq, h]

theorem OnlyBlock.trans {block : ℕ} {s s1 s2 : St} (h : OnlyBlock c block s s1)
    (h' : OnlyBlock c block s1 s2) : OnlyBlock c block s s2 where
  bmt := h'.bmt.trans h.bmt
  index := h'.index.trans h.index
  swept := h'.swept.trans h.swept
  calls := h'.calls.trans h.calls
  bad := fun b hb => (h'.bad b hb).trans (h.bad b hb)
  erased := fun b hb => (h'.erased b hb).trans (h.erased b hb)

theorem nandEraseBmt_only (block : ℕ) (s : St) :
    OnlyBlock c block s (nandEraseBmt c host (c.offset block) s).2 := by
  refine ⟨rfl, rfl, rfl, rfl, fun b hb => bad_of_page_eq ?_, fun b hb => ?_⟩
  · have hne : ¬b * c.pagePerBlock / c.pagePerBlock =
        c.offset block >>> c.pageSizeBit / c.pagePerBlock := by
      rw [offset_page, page_block, page_block]
      exact hb
    exact if_neg hne
  · show Function.update s.flash.erased (c.offset block >>> c.pageSizeBit / c.pagePerBlock) _ b = _
    rw [offset_page, page_block]
    exact Function.update_of_ne hb _ _

theorem nandEraseBmt_erased {block : ℕ} {s : St}
    (h : (nandEraseBmt c host (c.offset block) s).1 = true) :
    (nandEraseBmt c host (c.offset block) s).2.flash.erased block = true := by
  show Function.update s.flash.erased (c.offset block >>> c.pageSizeBit / c.pagePerBlock)
    (nandEraseBmt c host (c.offset block) s).1 block = true
  rw [offset_page, page_block, Function.update_self, h]

theorem marked_bad (page : Buf) : marked c page (badPos c) ≠ 0xff := by
  rw [marked, Function.update_self]
  intro h
  have hbit := congrArg (fun x : Byte => x.getLsbD 2) h
  simp at hbit

theorem markBlockBadBmt_only (offset : ℕ) (s : St) :
    OnlyBlock c (offset / c.blockSize) s (markBlockBadBmt c host offset s) := by
  refine ⟨rfl, rfl, rfl, rfl, fun b hb => bad_of_page_eq ?_, fun b hb => ?_⟩
  · have hne : b * c.pagePerBlock ≠ offset >>> c.pageSizeBit := by
      intro heq
      apply hb
      rw [← offset_block, ← heq, page_block]
    unfold markBlockBadBmt
    dsimp only
    split
    · rw [Function.update_of_ne hne]
    · rfl
  · show Function.update s.flash.erased (offset >>> c.pageSizeBit / c.pagePerBlock) _ b = _
    rw [offset_block]
    exact Function.update_of_ne hb _ _

/-- A mark on a block that is bad leaves it bad. -/
theorem markBlockBadBmt_keeps {offset b : ℕ} {s : St} (h : bad c s.flash b = true) :
    bad c (markBlockBadBmt c host offset s).flash b = true := by
  rw [bad_eq] at h ⊢
  unfold markBlockBadBmt
  dsimp only
  split
  · by_cases hpage : b * c.pagePerBlock = offset >>> c.pageSizeBit
    · rw [hpage, Function.update_self, bne_iff_ne]
      exact marked_bad _
    · rwa [Function.update_of_ne hpage]
  · exact h

theorem markBlockBadBmt_bad {offset b : ℕ} {s : St}
    (hpage : offset >>> c.pageSizeBit = b * c.pagePerBlock)
    (hok : host.markOk s.tick (b * c.pagePerBlock) = true) :
    bad c (markBlockBadBmt c host offset s).flash b = true := by
  rw [bad_eq, bne_iff_ne]
  unfold markBlockBadBmt
  dsimp only
  rw [hpage, if_pos hok, Function.update_self]
  exact marked_bad _

theorem markBlockBadBmt_offset_only (block : ℕ) (s : St) :
    OnlyBlock c block s (markBlockBadBmt c host (c.offset block) s) := by
  have h : OnlyBlock c (c.offset block / c.blockSize) s
      (markBlockBadBmt c host (c.offset block) s) := markBlockBadBmt_only _ s
  rwa [← offset_block, offset_page, page_block] at h

theorem markBlockBadBmt_offset_bad {block : ℕ} {s : St} (hmarks : MarksWork c host)
    (hblock : c.systemBlockCount ≤ block) :
    bad c (markBlockBadBmt c host (c.offset block) s).flash block = true :=
  markBlockBadBmt_bad (offset_page block) (hmarks _ _ (Nat.mul_le_mul_right _ hblock))

theorem nfcWritePage_only (buf : Buf) {block page : ℕ} (s : St)
    (hpage : page / c.pagePerBlock = block) :
    OnlyBlock c block s (nfcWritePage c host buf page s).2.2 := by
  have hne : ∀ b, b ≠ block → b * c.pagePerBlock ≠ page := by
    intro b hb heq
    apply hb
    rw [← hpage, ← heq, page_block]
  have hfirst : ∀ b, b ≠ block → b * c.pagePerBlock ≠ block * c.pagePerBlock :=
    fun b hb heq => hb (Nat.eq_of_mul_eq_mul_right pagePerBlock_pos heq)
  unfold nfcWritePage
  dsimp only
  rw [hpage]
  split
  · refine ⟨rfl, rfl, rfl, rfl, fun b hb => bad_of_page_eq ?_, fun b hb => ?_⟩
    · exact Function.update_of_ne (hne b hb) _ _
    · exact Function.update_of_ne hb _ _
  · refine ⟨rfl, rfl, rfl, rfl, fun b hb => bad_of_page_eq ?_, fun b hb => ?_⟩
    · exact Function.update_of_ne (hne b hb) _ _
    · exact Function.update_of_ne hb _ _
  · refine ⟨rfl, rfl, rfl, rfl, fun b hb => bad_of_page_eq ?_, fun b hb => ?_⟩
    · dsimp only
      split
      · rw [Function.update_of_ne (hfirst b hb), Function.update_of_ne (hne b hb)]
      · exact Function.update_of_ne (hne b hb) _ _
    · exact Function.update_of_ne hb _ _

theorem nandWritePageBmt_only {block page : ℕ} (dat : Option Buf) (s : St)
    (hpage : page / c.pagePerBlock = block) :
    OnlyBlock c block s (nandWritePageBmt c host page dat s).2 := by
  unfold nandWritePageBmt
  cases dat with
  | some dat => exact nfcWritePage_only _ s hpage
  | none => exact { nfcWritePage_only s.pageBuf s hpage with }

theorem nandReadPageBmt_only (block page : ℕ) (s : St) :
    OnlyBlock c block s (nandReadPageBmt c host page s).2 :=
  ⟨rfl, rfl, rfl, rfl, fun _ _ => rfl, fun _ _ => rfl⟩

theorem isBlockMapped_none {bmt : BmtStruct} {b : ℕ} :
    isBlockMapped bmt b = none ↔ ∀ i, i < bmt.mappedCount → (bmt.table i).mappedIndex ≠ b := by
  simp only [isBlockMapped, List.find?_eq_none, List.mem_range, beq_iff_eq]
  exact ⟨fun h i hi heq => h i hi heq.symm, fun h i hi heq => h i hi heq.symm⟩

/-- A block that the sweep leaves behind in order. -/
def Swept (c : Conf) (s : St) (b : ℕ) : Prop :=
  bad c s.flash b = true ∨ s.flash.erased b = true

theorem OnlyBlock.swept_of_ne {block b : ℕ} {s s' : St} (h : OnlyBlock c block s s')
    (hb : b ≠ block) (hs : Swept c s b) : Swept c s' b := by
  rw [Swept, h.bad b hb, h.erased b hb]
  exact hs

/-- One erase of the sweep, with the mark after a failure. -/
theorem eraseOrMark_only (c : Conf) (host : Host) (block : ℕ) (s : St) :
    let e := nandEraseBmt c host (c.offset block) s
    OnlyBlock c block s (if e.1 then e.2 else markBlockBadBmt c host (c.offset block) e.2) := by
  intro e
  have honly : OnlyBlock c block s e.2 := nandEraseBmt_only block s
  split
  · exact honly
  · exact honly.trans (markBlockBadBmt_offset_only block e.2)

theorem eraseOrMark_swept (block : ℕ) (s : St) (hmarks : MarksWork c host)
    (hblock : c.systemBlockCount ≤ block) :
    let e := nandEraseBmt c host (c.offset block) s
    Swept c (if e.1 then e.2 else markBlockBadBmt c host (c.offset block) e.2) block := by
  intro e
  split
  · rename_i he
    exact Or.inr (nandEraseBmt_erased he)
  · exact Or.inl (markBlockBadBmt_offset_bad hmarks hblock)

/-- A step that keeps the table, its block and the log, and makes no bad block good. -/
structure SweepKeeps (c : Conf) (s s' : St) : Prop where
  bmt : s'.bmt = s.bmt
  index : s'.bmtBlockIndex = s.bmtBlockIndex
  calls : s'.calls = s.calls
  bads : ∀ b, bad c s.flash b = true → bad c s'.flash b = true

theorem SweepKeeps.refl (s : St) : SweepKeeps c s s := ⟨rfl, rfl, rfl, fun _ hb => hb⟩

/-- A step on a block that was good, before such a step. -/
theorem SweepKeeps.after_only {block : ℕ} {s s1 s2 : St} (h : SweepKeeps c s1 s2)
    (honly : OnlyBlock c block s s1) (hgood : ¬bad c s.flash block = true) : SweepKeeps c s s2 where
  bmt := h.bmt.trans honly.bmt
  index := h.index.trans honly.index
  calls := h.calls.trans honly.calls
  bads := by
    intro b hb
    refine h.bads b ?_
    rw [honly.bad b]
    · exact hb
    · rintro rfl
      exact hgood hb

/-- The sweep erases no block that is bad, whatever is known of the state. -/
theorem eraseUnmapped_keeps (is : List ℕ) (s : St) :
    SweepKeeps c s (eraseUnmapped c host is s).2 := by
  induction is generalizing s with
  | nil => exact SweepKeeps.refl s
  | cons i is ih =>
    rw [eraseUnmapped]
    dsimp only
    split
    · exact ih s
    · by_cases hbad : nandBlockBadBmt c s.flash (c.offset (c.systemBlockCount + i)) = true
      · rw [if_pos hbad]
        exact ih s
      · rw [if_neg hbad]
        split
        · exact ih s
        · exact (ih _).after_only (eraseOrMark_only c host (c.systemBlockCount + i) s) hbad

theorem sweepPool_keeps (s : St) : SweepKeeps c s (sweepPool c host s).2 := by
  unfold sweepPool
  split
  · exact SweepKeeps.refl s
  · exact { @eraseUnmapped_keeps c host (List.range c.bmtBlockCount) s with }

/-- What the sweep has done: it erased only blocks that are not mapped, and left
every block bad, mapped or erased. -/
structure SweepSpec (c : Conf) (is : List ℕ) (s : St) (r : List ℕ × St) : Prop where
  bmt : r.2.bmt = s.bmt
  index : r.2.bmtBlockIndex = s.bmtBlockIndex
  calls : r.2.calls = s.calls
  erases : ∀ b ∈ r.1, c.systemBlockCount ≤ b ∧ isBlockMapped s.bmt b = none
  keeps : ∀ b, Swept c s b → Swept c r.2 b
  bads : ∀ b, bad c s.flash b = true → bad c r.2.flash b = true
  reaches : ∀ i ∈ is, isBlockMapped s.bmt (c.systemBlockCount + i) = none →
    Swept c r.2 (c.systemBlockCount + i)

theorem SweepSpec.cons_skip {i : ℕ} {is : List ℕ} {s : St} {r : List ℕ × St}
    (h : SweepSpec c is s r)
    (hi : isBlockMapped s.bmt (c.systemBlockCount + i) = none →
      Swept c s (c.systemBlockCount + i)) : SweepSpec c (i :: is) s r := by
  refine { h with reaches := ?_ }
  intro j hj hmapped
  rcases List.mem_cons.mp hj with rfl | hj
  · exact h.keeps _ (hi hmapped)
  · exact h.reaches j hj hmapped

theorem eraseUnmapped_spec (hmarks : MarksWork c host) (is : List ℕ) (s : St)
    (hindex : s.bmtBlockIndex ≠ c.systemBlockCount) :
    SweepSpec c is s (eraseUnmapped c host is s) := by
  induction is generalizing s with
  | nil => exact ⟨rfl, rfl, rfl, by simp [eraseUnmapped], fun _ h => h, fun _ h => h, by simp⟩
  | cons i is ih =>
    rw [eraseUnmapped]
    dsimp only
    rw [if_neg hindex.symm]
    by_cases hbad : nandBlockBadBmt c s.flash (c.offset (c.systemBlockCount + i)) = true
    · rw [if_pos hbad]
      exact (ih s hindex).cons_skip fun _ => Or.inl hbad
    · rw [if_neg hbad]
      by_cases hmap : (isBlockMapped s.bmt (c.systemBlockCount + i)).isSome = true
      · rw [if_pos hmap]
        exact (ih s hindex).cons_skip fun hnone => by simp [hnone] at hmap
      · rw [if_neg hmap]
        have honly := eraseOrMark_only c host (c.systemBlockCount + i) s
        have hswept := eraseOrMark_swept (c.systemBlockCount + i) s hmarks (Nat.le_add_right _ _)
        have h := ih _ (by rw [honly.index]; exact hindex)
        have hnone : isBlockMapped s.bmt (c.systemBlockCount + i) = none := by simpa using hmap
        have hkeeps : SweepKeeps c s (eraseUnmapped c host is _).2 :=
          (eraseUnmapped_keeps is _).after_only honly hbad
        refine ⟨hkeeps.bmt, hkeeps.index, hkeeps.calls, ?_, ?_, hkeeps.bads, ?_⟩
        · intro b hb
          rcases List.mem_cons.mp hb with rfl | hb
          · exact ⟨Nat.le_add_right _ _, hnone⟩
          · have herase := h.erases b hb
            rwa [honly.bmt] at herase
        · intro b hb
          refine h.keeps b ?_
          by_cases hbi : b = c.systemBlockCount + i
          · rw [hbi]
            exact hswept
          · exact honly.swept_of_ne hbi hb
        · intro j hj hmapped
          rcases List.mem_cons.mp hj with rfl | hj
          · exact h.keeps _ hswept
          · refine h.reaches j hj ?_
            rwa [honly.bmt]

/-- The state in which find_available_block may be called. -/
structure Ready (c : Conf) (s : St) : Prop where
  unswept : s.poolErased = false → s.bmtBlockIndex = 0
  swept : s.poolErased = true → FreeErased c s
  index : s.bmtBlockIndex ≠ 0 → InPool c s.bmtBlockIndex
  safe : AllSafe c s

/-- After a call: the pool is swept, the call was safe, and the block handed out
can be used. -/
structure FoundSpec (c : Conf) (s : St) (r : ℕ × St) : Prop where
  bmt : r.2.bmt = s.bmt
  index : r.2.bmtBlockIndex = s.bmtBlockIndex
  swept : r.2.poolErased = true
  free : FreeErased c r.2
  safe : AllSafe c r.2
  found : r.1 ≠ 0 → InPool c r.1 ∧ bad c r.2.flash r.1 = false ∧
    isBlockMapped s.bmt r.1 = none ∧ r.1 ≠ s.bmtBlockIndex
  bads : ∀ b, bad c s.flash b = true → bad c r.2.flash b = true

theorem mem_poolBlocks {startFromEnd : Bool} {b : ℕ}
    (hcounts : c.systemBlockCount + c.bmtBlockCount = c.totalBlockCount)
    (h : b ∈ poolBlocks c startFromEnd) : InPool c b := by
  simp only [poolBlocks, List.mem_map, List.mem_range] at h
  obtain ⟨i, hi, rfl⟩ := h
  unfold InPool
  cases startFromEnd with
  | true =>
    simp only [if_true]
    omega
  | false =>
    simp only [Bool.false_eq_true, if_false]
    omega

/-- The sweep, when it is due or not. -/
theorem sweepPool_spec (hmarks : MarksWork c host)
    (hcounts : 0 < c.systemBlockCount ∧ c.systemBlockCount + c.bmtBlockCount = c.totalBlockCount)
    {s : St} (h : Ready c s) :
    let r := sweepPool c host s
    r.2.bmt = s.bmt ∧ r.2.bmtBlockIndex = s.bmtBlockIndex ∧ r.2.calls = s.calls ∧
      r.2.poolErased = true ∧ FreeErased c r.2 ∧
      (∀ b ∈ r.1, b ≠ s.bmtBlockIndex ∧ isBlockMapped s.bmt b = none) ∧
      ∀ b, bad c s.flash b = true → bad c r.2.flash b = true := by
  intro r
  cases hpe : s.poolErased with
  | true =>
    have hr : r = ([], s) := if_pos hpe
    rw [hr]
    exact ⟨rfl, rfl, rfl, hpe, h.swept hpe, by simp, fun _ hb => hb⟩
  | false =>
    have hzero := h.unswept hpe
    have hspec := eraseUnmapped_spec hmarks (List.range c.bmtBlockCount) s (by omega)
    set e := eraseUnmapped c host (List.range c.bmtBlockCount) s with he
    have hr : r = (e.1, { e.2 with poolErased := true }) := if_neg (by simp [hpe])
    rw [hr]
    refine ⟨hspec.bmt, hspec.index, hspec.calls, rfl, ?_, ?_, hspec.bads⟩
    · intro b hb hgood hmapped _
      obtain ⟨i, rfl⟩ := Nat.exists_eq_add_of_le hb.1
      have hi : i < c.bmtBlockCount := by
        have := hb.2
        omega
      have hmapped' : isBlockMapped s.bmt (c.systemBlockCount + i) = none := by
        rw [← hspec.bmt]
        exact hmapped
      rcases hspec.reaches i (List.mem_range.mpr hi) hmapped' with hbad | herased
      · exact absurd (hbad.symm.trans hgood) (by simp)
      · exact herased
    · intro b hb
      obtain ⟨hpool, hmapped⟩ := hspec.erases b hb
      exact ⟨by omega, hmapped⟩

theorem findAvailableBlock_spec (hmarks : MarksWork c host)
    (hcounts : 0 < c.systemBlockCount ∧ c.systemBlockCount + c.bmtBlockCount = c.totalBlockCount)
    (startFromEnd : Bool) {s : St} (h : Ready c s) :
    FoundSpec c s (findAvailableBlock c host startFromEnd s) := by
  obtain ⟨hbmt, hindex, hcalls, hpe, hfree, herases, hbads⟩ :=
    sweepPool_spec hmarks hcounts h
  unfold findAvailableBlock
  dsimp only
  set r := sweepPool c host s with hr
  set ret := ((poolBlocks c startFromEnd).find? (isAvailable c r.2)).getD 0 with hret
  have hfound : ret ≠ 0 → InPool c ret ∧ bad c r.2.flash ret = false ∧
      isBlockMapped s.bmt ret = none ∧ ret ≠ s.bmtBlockIndex := by
    intro hne
    cases hfind : (poolBlocks c startFromEnd).find? (isAvailable c r.2) with
    | none =>
      rw [hfind] at hret
      exact absurd hret hne
    | some b =>
      rw [hfind, Option.getD_some] at hret
      have hav := List.find?_some hfind
      rw [← hret] at hav hfind
      simp only [isAvailable, hbmt, hindex, Bool.and_eq_true, bne_iff_ne, Bool.not_eq_true',
        Option.isNone_iff_eq_none] at hav
      exact ⟨mem_poolBlocks hcounts.2 (List.mem_of_find?_eq_some hfind), hav.1.2, hav.2, hav.1.1⟩
  refine ⟨hbmt, hindex, hpe, hfree, ?_, hfound, hbads⟩
  intro call hcall
  rcases List.mem_append.mp hcall with hcall | hcall
  · rw [hcalls] at hcall
    exact h.safe call hcall
  · obtain rfl := List.mem_singleton.mp hcall
    refine ⟨herases, fun hne => ?_⟩
    obtain ⟨hpool, hgood, hmapped, hidx⟩ := hfound hne
    refine ⟨hpool, hgood, hmapped, hidx, hfree ret hpool hgood ?_ ?_⟩
    · rw [hbmt]
      exact hmapped
    · rw [hindex]
      exact hidx

theorem FreeErased.but {s : St} (h : FreeErased c s) (n : ℕ) : FreeErasedBut c n s :=
  fun b _ => h b

theorem FreeErasedBut.touch {n : ℕ} {s s' : St} (h : FreeErasedBut c n s)
    (honly : OnlyBlock c n s s') : FreeErasedBut c n s' := by
  intro b hb hpool hgood hmapped hidx
  rw [honly.bad b hb] at hgood
  rw [honly.bmt] at hmapped
  rw [honly.index] at hidx
  rw [honly.erased b hb]
  exact h b hb hpool hgood hmapped hidx

/-- A block that is bad, mapped, the table block or not of the pool needs no
erase. -/
theorem FreeErasedBut.close {n : ℕ} {s : St} (h : FreeErasedBut c n s)
    (hn : bad c s.flash n = true ∨ isBlockMapped s.bmt n ≠ none ∨ n = s.bmtBlockIndex ∨
      ¬InPool c n) : FreeErased c s := by
  intro b hpool hgood hmapped hidx
  by_cases hb : b = n
  · subst hb
    rcases hn with hn | hn | hn | hn
    · exact absurd (hn.symm.trans hgood) (by simp)
    · exact absurd hmapped hn
    · exact absurd hn hidx
    · exact absurd hpool hn
  · exact h b hb hpool hgood hmapped hidx

/-- After a failure on the table block: it is marked bad and given up. -/
theorem ready_retry (hmarks : MarksWork c host) {s s' : St} (h : Ready c s)
    (hidx : s.bmtBlockIndex ≠ 0) (honly : OnlyBlock c s.bmtBlockIndex s s') :
    let t := { markBlockBadBmt c host (c.offset s.bmtBlockIndex) s' with bmtBlockIndex := 0 }
    Ready c t ∧ t.bmt = s.bmt ∧ ∀ b, bad c s.flash b = true → bad c t.flash b = true := by
  intro t
  have hpe : s.poolErased = true := by
    by_contra hpe
    exact hidx (h.unswept (by simpa using hpe))
  have hmark : OnlyBlock c s.bmtBlockIndex s
      (markBlockBadBmt c host (c.offset s.bmtBlockIndex) s') :=
    honly.trans (markBlockBadBmt_offset_only _ _)
  have hbad : bad c t.flash s.bmtBlockIndex = true :=
    markBlockBadBmt_offset_bad hmarks (h.index hidx).1
  refine ⟨⟨fun _ => rfl, fun _ => ?_, fun hne => absurd rfl hne, ?_⟩, hmark.bmt, ?_⟩
  · intro b hpool hgood hmapped _
    have hb : b ≠ s.bmtBlockIndex := by
      rintro rfl
      exact absurd (hbad.symm.trans hgood) (by simp)
    have hgood' : bad c s.flash b = false := (hmark.bad b hb).symm.trans hgood
    have hmapped' : isBlockMapped s.bmt b = none := by
      rw [← hmark.bmt]
      exact hmapped
    exact (hmark.erased b hb).trans (h.swept hpe b hpool hgood' hmapped' hb)
  · intro call hcall
    refine h.safe call ?_
    rw [← hmark.calls]
    exact hcall
  · intro b hb
    by_cases hbi : b = s.bmtBlockIndex
    · rw [hbi]
      exact hbad
    · exact (hmark.bad b hbi).trans hb

/-- What write_bmt_to_flash leaves behind, whether or not it ends. -/
structure WroteSpec (c : Conf) (s : St) (r : Option Bool × St) : Prop where
  ready : Ready c r.2
  bmt : r.2.bmt = s.bmt
  keeps : ∀ b, bad c s.flash b = true → bad c r.2.flash b = true ∨ b = r.2.bmtBlockIndex
  swept : r.1 ≠ none → r.2.poolErased = true

theorem WroteSpec.of_kept {s t : St} {r : Option Bool × St} (h : WroteSpec c t r)
    (hbmt : t.bmt = s.bmt) (hkeeps : ∀ b, bad c s.flash b = true → bad c t.flash b = true) :
    WroteSpec c s r :=
  { h with
    bmt := h.bmt.trans hbmt
    keeps := fun b hb => h.keeps b (hkeeps b hb) }

/-- Erase or page write of the table block done, with success. -/
theorem ready_table {s s' : St} (h : Ready c s) (hidx : s.bmtBlockIndex ≠ 0)
    (honly : OnlyBlock c s.bmtBlockIndex s s') : WroteSpec c s (some true, s') := by
  have hpe : s.poolErased = true := by
    by_contra hpe
    exact hidx (h.unswept (by simpa using hpe))
  have hfree : FreeErased c s' :=
    (((h.swept hpe).but s.bmtBlockIndex).touch honly).close
      (Or.inr (Or.inr (Or.inl honly.index.symm)))
  refine ⟨⟨?_, fun _ => hfree, ?_, ?_⟩, honly.bmt, ?_, fun _ => honly.swept.trans hpe⟩
  · intro hzero
    rw [honly.swept, hpe] at hzero
    exact absurd hzero (by simp)
  · rw [honly.index]
    exact h.index
  · intro call hcall
    rw [honly.calls] at hcall
    exact h.safe call hcall
  · intro b hb
    by_cases hbi : b = s.bmtBlockIndex
    · exact Or.inr (hbi.trans honly.index.symm)
    · exact Or.inl ((honly.bad b hbi).trans hb)

/-- A found block becomes the table block. -/
theorem FoundSpec.choose {s : St} {r : ℕ × St} (h : FoundSpec c s r)
    (hzero : s.bmtBlockIndex = 0) (hpool : 0 < c.systemBlockCount) :
    Ready c { r.2 with bmtBlockIndex := r.1 } where
  unswept := fun hpe => absurd (h.swept.symm.trans hpe) (by simp)
  swept := fun _ b hb hgood hmapped _ => by
    refine h.free b hb hgood hmapped ?_
    rw [h.index, hzero]
    have := hb.1
    omega
  index := fun hne => (h.found hne).1
  safe := h.safe

theorem writeBmtToFlash_spec (hmarks : MarksWork c host)
    (hcounts : 0 < c.systemBlockCount ∧ c.systemBlockCount + c.bmtBlockCount = c.totalBlockCount)
    (fuel : ℕ) {s : St} (h : Ready c s) : WroteSpec c s (writeBmtToFlash c host fuel s) := by
  induction fuel generalizing s with
  | zero => exact ⟨h, rfl, fun b hb => Or.inl hb, fun hne => absurd rfl hne⟩
  | succ fuel ih =>
    rw [writeBmtToFlash]
    dsimp only
    by_cases hidx : s.bmtBlockIndex = 0
    · rw [if_neg (not_not.mpr hidx), if_neg (not_not.mpr hidx)]
      have hfound := findAvailableBlock_spec hmarks hcounts true h
      set f := findAvailableBlock c host true s with hf
      have hready := hfound.choose hidx hcounts.1
      by_cases hnone : f.1 = 0
      · rw [if_pos hnone]
        exact ⟨hready, hfound.bmt, fun b hb => Or.inl (hfound.bads b hb), fun _ => hfound.swept⟩
      · rw [if_neg hnone, if_pos rfl]
        have honly : OnlyBlock c f.1 { f.2 with bmtBlockIndex := f.1 }
            (nandWritePageBmt c host (c.pageAddr f.1) none { f.2 with bmtBlockIndex := f.1 }).2 :=
          nandWritePageBmt_only none _ (by rw [pageAddr_eq, page_block])
        split
        · exact (ready_table hready hnone honly).of_kept hfound.bmt hfound.bads
        · obtain ⟨ht, hbmt, hkept⟩ := ready_retry hmarks hready hnone honly
          exact (ih ht).of_kept (hbmt.trans hfound.bmt) fun b hb => hkept b (hfound.bads b hb)
    · rw [if_pos hidx, if_pos hidx, if_neg hidx]
      have herase : OnlyBlock c s.bmtBlockIndex s
          (nandEraseBmt c host (c.offset s.bmtBlockIndex) s).2 := nandEraseBmt_only _ s
      split
      · have honly : OnlyBlock c s.bmtBlockIndex s (nandWritePageBmt c host
            (c.pageAddr s.bmtBlockIndex) none
            (nandEraseBmt c host (c.offset s.bmtBlockIndex) s).2).2 :=
          herase.trans (nandWritePageBmt_only none _ (by rw [pageAddr_eq, page_block]))
        split
        · exact ready_table h hidx honly
        · obtain ⟨ht, hbmt, hkept⟩ := ready_retry hmarks h hidx honly
          exact (ih ht).of_kept hbmt hkept
      · obtain ⟨ht, hbmt, hkept⟩ := ready_retry hmarks h hidx herase
        exact (ih ht).of_kept hbmt hkept

/-- The first try of write_bmt_to_flash, when no erase and no write of the table
block fails, touches nothing else. -/
theorem writeBmtToFlash_first_try {s : St} (hidx : s.bmtBlockIndex ≠ 0)
    (herase : ∀ tick, host.eraseOk tick s.bmtBlockIndex = true)
    (hwrite : ∀ tick, host.write tick (s.bmtBlockIndex * c.pagePerBlock) = .ok) (fuel : ℕ) :
    ∃ s', writeBmtToFlash c host (fuel + 1) s = (some true, s') ∧
      OnlyBlock c s.bmtBlockIndex s s' := by
  have herase' : (nandEraseBmt c host (c.offset s.bmtBlockIndex) s).1 = true := by
    show host.eraseOk s.tick (c.offset s.bmtBlockIndex >>> c.pageSizeBit / c.pagePerBlock) = true
    rw [offset_page, page_block]
    exact herase _
  have honly : OnlyBlock c s.bmtBlockIndex s (nandWritePageBmt c host
      (c.pageAddr s.bmtBlockIndex) none
      (nandEraseBmt c host (c.offset s.bmtBlockIndex) s).2).2 :=
    (nandEraseBmt_only _ s).trans (nandWritePageBmt_only none _ (by rw [pageAddr_eq, page_block]))
  have hwrite' : (nandWritePageBmt c host (c.pageAddr s.bmtBlockIndex) none
      (nandEraseBmt c host (c.offset s.bmtBlockIndex) s).2).1 = true := by
    rw [pageAddr_eq]
    unfold nandWritePageBmt nfcWritePage
    dsimp only
    rw [hwrite]
  refine ⟨_, ?_, honly⟩
  rw [writeBmtToFlash]
  dsimp only
  rw [if_pos hidx, if_pos hidx, if_neg hidx, if_pos herase', if_pos hwrite']

/-- The outcome of the page loop: only the target is touched, and it is marked
bad after a failure. -/
theorem migratePages_only (errorBlock errorPage : ℕ) {toIndex : ℕ}
    (hmark : ∀ s, bad c (markBlockBadBmt c host (c.offset toIndex) s).flash toIndex = true)
    (pages : List ℕ) (hpages : ∀ p ∈ pages, p < c.pagePerBlock) (s : St) :
    let r := migratePages c host errorBlock errorPage toIndex pages s
    OnlyBlock c toIndex s r.2 ∧ (r.1 = false → bad c r.2.flash toIndex = true) := by
  induction pages generalizing s with
  | nil => exact ⟨⟨rfl, rfl, rfl, rfl, fun _ _ => rfl, fun _ _ => rfl⟩, by simp [migratePages]⟩
  | cons page pages ih =>
    have hpages' : ∀ p ∈ pages, p < c.pagePerBlock := fun p hp =>
      hpages p (List.mem_cons_of_mem _ hp)
    have hpage := hpages page List.mem_cons_self
    rw [migratePages]
    split
    · exact ih hpages' s
    · have hread : OnlyBlock c toIndex s
          (nandReadPageBmt c host (c.pageAddr errorBlock + page) s).2 := nandReadPageBmt_only _ _ s
      dsimp only
      set t := (nandReadPageBmt c host (c.pageAddr errorBlock + page) s).2 with ht
      split
      · have hwrite : OnlyBlock c toIndex { t with
            pageBuf := Function.update (indexed c errorBlock t.pageBuf) (badPos c) 0xff }
            (nandWritePageBmt c host (c.pageAddr toIndex + page) none { t with
              pageBuf := Function.update (indexed c errorBlock t.pageBuf) (badPos c) 0xff }).2 :=
          nandWritePageBmt_only none _ (page_block_add hpage)
        have honly : OnlyBlock c toIndex s
            (nandWritePageBmt c host (c.pageAddr toIndex + page) none { t with
              pageBuf := Function.update (indexed c errorBlock t.pageBuf) (badPos c) 0xff }).2 :=
          hread.trans { hwrite with }
        split
        · obtain ⟨h1, h2⟩ := ih hpages' _
          exact ⟨honly.trans h1, h2⟩
        · exact ⟨honly.trans (markBlockBadBmt_offset_only _ _),
            fun _ => hmark _⟩
      · obtain ⟨h1, h2⟩ := ih hpages' t
        exact ⟨hread.trans h1, h2⟩

/-- What a migration leaves behind: the block it filled is the only free block
that is not erased. -/
structure MigratedSpec (c : Conf) (s : St) (r : Option ℕ × St) : Prop where
  bmt : r.2.bmt = s.bmt
  index : r.2.bmtBlockIndex = s.bmtBlockIndex
  safe : AllSafe c r.2
  bads : ∀ b, bad c s.flash b = true → bad c r.2.flash b = true
  done : ∀ n, r.1 = some n → r.2.poolErased = true ∧ FreeErasedBut c n r.2 ∧
    (n = 0 → FreeErased c r.2) ∧
    (n ≠ 0 → InPool c n ∧ isBlockMapped s.bmt n = none ∧ n ≠ s.bmtBlockIndex)

/-- Writing into the block found keeps what was bad. -/
theorem FoundSpec.bads_of_only {s t : St} {r : ℕ × St} (h : FoundSpec c s r) (hne : r.1 ≠ 0)
    (honly : OnlyBlock c r.1 r.2 t) (b : ℕ) (hb : bad c s.flash b = true) :
    bad c t.flash b = true := by
  have hgood := (h.found hne).2.1
  have hb' := h.bads b hb
  rw [honly.bad b]
  · exact hb'
  · rintro rfl
    exact absurd (hb'.symm.trans hgood) (by simp)

theorem FoundSpec.safe_of_only {s t : St} {r : ℕ × St} (h : FoundSpec c s r)
    (honly : OnlyBlock c r.1 r.2 t) : AllSafe c t := by
  intro call hcall
  rw [honly.calls] at hcall
  exact h.safe call hcall

/-- The block found turned out bad: the search may be repeated. -/
theorem FoundSpec.ready_of_bad {s t : St} {r : ℕ × St} (h : FoundSpec c s r) (hs : Ready c s)
    (honly : OnlyBlock c r.1 r.2 t) (hbad : bad c t.flash r.1 = true) : Ready c t where
  unswept := by
    intro hpe
    rw [honly.swept, h.swept] at hpe
    exact absurd hpe (by simp)
  swept := fun _ => ((h.free.but r.1).touch honly).close (Or.inl hbad)
  index := by
    rw [honly.index, h.index]
    exact hs.index
  safe := h.safe_of_only honly

theorem migrateFromBad_spec (hmarks : MarksWork c host)
    (hcounts : 0 < c.systemBlockCount ∧ c.systemBlockCount + c.bmtBlockCount = c.totalBlockCount)
    (fuel offset : ℕ) (dat : Option Buf) {s : St} (h : Ready c s) :
    MigratedSpec c s (migrateFromBad c host fuel offset dat s) := by
  induction fuel generalizing s with
  | zero => exact ⟨rfl, rfl, h.safe, fun _ hb => hb, fun n hn => by simp [migrateFromBad] at hn⟩
  | succ fuel ih =>
    rw [migrateFromBad]
    dsimp only
    set s0 : St := { s with pageBuf := _ } with hs0
    have h0 : Ready c s0 := { h with }
    have hfound := findAvailableBlock_spec hmarks hcounts false h0
    set f := findAvailableBlock c host false s0 with hf
    by_cases hnone : f.1 = 0
    · rw [if_pos hnone]
      refine ⟨hfound.bmt, hfound.index, hfound.safe, hfound.bads, ?_⟩
      intro n hn
      obtain rfl := Option.some.inj hn
      exact ⟨hfound.swept, hfound.free.but 0, fun _ => hfound.free, fun hne => absurd rfl hne⟩
    · rw [if_neg hnone]
      obtain ⟨hpool, _, hmapped, hidx⟩ := hfound.found hnone
      set t : St := { f.2 with pageBuf := _ } with ht
      have hpage : (c.pageAddr f.1 + offset / c.pageSize % c.pagePerBlock) / c.pagePerBlock = f.1 :=
        page_block_add (Nat.mod_lt _ pagePerBlock_pos)
      have hwrite : OnlyBlock c f.1 f.2 (nandWritePageBmt c host
          (c.pageAddr f.1 + offset / c.pageSize % c.pagePerBlock) dat t).2 :=
        { nandWritePageBmt_only dat t hpage with }
      -- the search starts again once the block is marked bad
      have hretry : ∀ s', OnlyBlock c f.1 f.2 s' → bad c s'.flash f.1 = true →
          MigratedSpec c s (migrateFromBad c host fuel offset dat s') := by
        intro s' honly hbad
        have hspec := ih (hfound.ready_of_bad h0 honly hbad)
        have hbmt : s'.bmt = s.bmt := honly.bmt.trans hfound.bmt
        have hindex : s'.bmtBlockIndex = s.bmtBlockIndex := honly.index.trans hfound.index
        refine ⟨hspec.bmt.trans hbmt, hspec.index.trans hindex, hspec.safe, ?_, ?_⟩
        · exact fun b hb => hspec.bads b (hfound.bads_of_only hnone honly b hb)
        · intro n hn
          have hdone := hspec.done n hn
          rwa [hbmt, hindex] at hdone
      split
      · obtain ⟨honly, hfail⟩ := migratePages_only (offset / c.blockSize)
          (offset / c.pageSize % c.pagePerBlock)
          (fun _ => markBlockBadBmt_offset_bad hmarks hpool.1)
          (List.range c.pagePerBlock) (fun p hp => List.mem_range.mp hp)
          (nandWritePageBmt c host
            (c.pageAddr f.1 + offset / c.pageSize % c.pagePerBlock) dat t).2
        have hboth := hwrite.trans honly
        split
        · refine ⟨hboth.bmt.trans hfound.bmt, hboth.index.trans hfound.index,
            hfound.safe_of_only hboth, hfound.bads_of_only hnone hboth, ?_⟩
          intro n hn
          obtain rfl := Option.some.inj hn
          exact ⟨hboth.swept.trans hfound.swept, (hfound.free.but f.1).touch hboth,
            fun hzero => absurd hzero hnone, fun _ => ⟨hpool, hmapped, hidx⟩⟩
        · rename_i hfalse
          exact hretry _ hboth (hfail (by simpa using hfalse))
      · exact hretry _ (hwrite.trans (markBlockBadBmt_offset_only _ _))
          (markBlockBadBmt_offset_bad hmarks hpool.1)

/-- The mapped blocks are different blocks of the pool. -/
structure MapInv (c : Conf) (bmt : BmtStruct) : Prop where
  pool : ∀ i, i < bmt.mappedCount → InPool c (bmt.table i).mappedIndex
  inj : ∀ i j, i < bmt.mappedCount → j < bmt.mappedCount →
    (bmt.table i).mappedIndex = (bmt.table j).mappedIndex → i = j

/-- So there are no more of them than the pool has blocks. -/
theorem MapInv.count_le {bmt : BmtStruct} (h : MapInv c bmt)
    (hcounts : c.systemBlockCount + c.bmtBlockCount = c.totalBlockCount) :
    bmt.mappedCount ≤ c.bmtBlockCount := by
  have hcard : (Finset.range bmt.mappedCount).card ≤
      (Finset.Ico c.systemBlockCount c.totalBlockCount).card := by
    refine Finset.card_le_card_of_injOn (fun i => (bmt.table i).mappedIndex) ?_ ?_
    · intro i hi
      have hpool := h.pool i (by simpa using hi)
      simpa [InPool] using hpool
    · intro i hi j hj heq
      exact h.inj i j (by simpa using hi) (by simpa using hj) heq
  rw [Finset.card_range, Nat.card_Ico] at hcard
  omega

end Iot7688.Bmt
