import Iot7688.BmtSafety

/-!
Runs of init_bmt and update_bmt. The table always maps to different blocks of
the pool, and find_available_block is safe in every call, as long as the first
sweep finds no loaded table, bad marks take effect and updates of pool blocks
are of the kind the code is written for.
-/
namespace Iot7688.Bmt

/-- What is known of the geometry once the pool size is accepted. -/
structure Counts (c : Conf) : Prop where
  system : 0 < c.systemBlockCount
  total : c.systemBlockCount + c.bmtBlockCount = c.totalBlockCount
  index : c.totalBlockCount ≤ 2 ^ 16
  size : c.bmtBlockCount < maxBmtSize

variable {c : Conf} {host : Host}

theorem Counts.pool (h : Counts c) :
    0 < c.systemBlockCount ∧ c.systemBlockCount + c.bmtBlockCount = c.totalBlockCount :=
  ⟨h.system, h.total⟩

theorem counts_of_size (h0 : 0 < c.bmtBlockCount) (h : c.bmtBlockCount < maxBmtSize) :
    Counts c := by
  obtain ⟨h1, h2, h3⟩ := conf_counts h0 h
  exact ⟨h1, h2, h3, h⟩

theorem setMapped_table (bmt : BmtStruct) (i : ℕ) {n : ℕ} (hn : n < 2 ^ 16) (j : ℕ) :
    ((bmt.setMapped i n).table j).mappedIndex =
      if j = i then n else (bmt.table j).mappedIndex := by
  unfold BmtStruct.setMapped
  dsimp only
  by_cases hj : j = i
  · rw [hj, Function.update_self, if_pos rfl]
    exact Nat.mod_eq_of_lt hn
  · rw [Function.update_of_ne hj, if_neg hj]

theorem append_table (bmt : BmtStruct) (badIndex : ℕ) {n : ℕ} (hn : n < 2 ^ 16) (j : ℕ) :
    ((bmt.append badIndex n).table j).mappedIndex =
      if j = bmt.mappedCount then n else (bmt.table j).mappedIndex := by
  unfold BmtStruct.append
  dsimp only
  by_cases hj : j = bmt.mappedCount
  · rw [hj, Function.update_self, if_pos rfl]
    exact Nat.mod_eq_of_lt hn
  · rw [Function.update_of_ne hj, if_neg hj]

/-- A table change that maps a free block n; only a block `gone` may have lost its
mapping. -/
structure Remapped (c : Conf) (gone n : ℕ) (bmt bmt' : BmtStruct) : Prop where
  inv : MapInv c bmt'
  mapped : isBlockMapped bmt' n ≠ none
  others : ∀ b, b ≠ gone → isBlockMapped bmt' b = none → isBlockMapped bmt b = none

theorem append_remapped (hc : Counts c) {bmt : BmtStruct} (h : MapInv c bmt) {n : ℕ}
    (hn : InPool c n) (hfree : isBlockMapped bmt n = none) (badIndex gone : ℕ) :
    Remapped c gone n bmt (bmt.append badIndex n) := by
  have htable := append_table bmt badIndex
    (show n < 2 ^ 16 from lt_of_lt_of_le hn.2 hc.index)
  have hcount : (bmt.append badIndex n).mappedCount = bmt.mappedCount + 1 := by
    have hle := h.count_le hc.total
    have hsize := hc.size
    unfold maxBmtSize at hsize
    exact Nat.mod_eq_of_lt (by omega)
  have hfree' := isBlockMapped_none.mp hfree
  refine ⟨⟨?_, ?_⟩, ?_, ?_⟩
  · intro i hi
    rw [hcount] at hi
    rw [htable]
    split
    · exact hn
    · exact h.pool i (by omega)
  · intro i j hi hj heq
    rw [hcount] at hi hj
    rw [htable, htable] at heq
    by_cases hin : i = bmt.mappedCount
    · by_cases hjn : j = bmt.mappedCount
      · omega
      · rw [if_pos hin, if_neg hjn] at heq
        exact absurd heq.symm (hfree' j (by omega))
    · by_cases hjn : j = bmt.mappedCount
      · rw [if_neg hin, if_pos hjn] at heq
        exact absurd heq (hfree' i (by omega))
      · rw [if_neg hin, if_neg hjn] at heq
        exact h.inj i j (by omega) (by omega) heq
  · rw [ne_eq, isBlockMapped_none]
    intro hnone
    refine hnone bmt.mappedCount (by omega) ?_
    rw [htable, if_pos rfl]
  · intro b _ hb
    rw [isBlockMapped_none] at hb ⊢
    intro i hi
    have hbi := hb i (by omega)
    rwa [htable, if_neg (by omega)] at hbi

/-- Appending maps no other block. -/
theorem append_none (hc : Counts c) {bmt : BmtStruct} (h : MapInv c bmt) {n b : ℕ}
    (hn : InPool c n) (badIndex : ℕ) (hbn : b ≠ n) (hb : isBlockMapped bmt b = none) :
    isBlockMapped (bmt.append badIndex n) b = none := by
  rw [isBlockMapped_none] at hb ⊢
  intro i hi
  have hle := h.count_le hc.total
  have hsize := hc.size
  have hi' : i < (bmt.mappedCount + 1) % 2 ^ 8 := hi
  unfold maxBmtSize at hsize
  rw [append_table bmt badIndex (lt_of_lt_of_le hn.2 hc.index)]
  split
  · exact hbn.symm
  · exact hb i (by omega)

theorem setMapped_remapped (hc : Counts c) {bmt : BmtStruct} (h : MapInv c bmt) {n : ℕ}
    (hn : InPool c n) (hfree : isBlockMapped bmt n = none) {i gone : ℕ} (hi : i < bmt.mappedCount)
    (hgone : (bmt.table i).mappedIndex = gone) : Remapped c gone n bmt (bmt.setMapped i n) := by
  have htable := setMapped_table bmt i
    (show n < 2 ^ 16 from lt_of_lt_of_le hn.2 hc.index)
  have hfree' := isBlockMapped_none.mp hfree
  refine ⟨⟨?_, ?_⟩, ?_, ?_⟩
  · intro j hj
    rw [htable]
    split
    · exact hn
    · exact h.pool j hj
  · intro j k hj hk heq
    rw [htable, htable] at heq
    by_cases hji : j = i
    · by_cases hki : k = i
      · omega
      · rw [if_pos hji, if_neg hki] at heq
        exact absurd heq.symm (hfree' k hk)
    · by_cases hki : k = i
      · rw [if_neg hji, if_pos hki] at heq
        exact absurd heq (hfree' j hj)
      · rw [if_neg hji, if_neg hki] at heq
        exact h.inj j k hj hk heq
  · rw [ne_eq, isBlockMapped_none]
    intro hnone
    refine hnone i hi ?_
    rw [htable, if_pos rfl]
  · intro b hb hnone
    rw [isBlockMapped_none] at hnone ⊢
    intro j hj
    by_cases hji : j = i
    · rw [hji, hgone]
      exact hb.symm
    · have hbj := hnone j hj
      rwa [htable, if_neg hji] at hbj

/-- Writing behind the mapped entries changes no mapping. -/
theorem setMapped_out {bmt : BmtStruct} {i n : ℕ} (hn : n < 2 ^ 16) (hi : bmt.mappedCount ≤ i)
    (h : MapInv c bmt) : MapInv c (bmt.setMapped i n) ∧
      ∀ b, isBlockMapped (bmt.setMapped i n) b = none → isBlockMapped bmt b = none := by
  have htable : ∀ j, j < bmt.mappedCount →
      ((bmt.setMapped i n).table j).mappedIndex = (bmt.table j).mappedIndex := by
    intro j hj
    rw [setMapped_table bmt i hn, if_neg (by omega)]
  refine ⟨⟨?_, ?_⟩, ?_⟩
  · intro j hj
    rw [htable j hj]
    exact h.pool j hj
  · intro j k hj hk heq
    rw [htable j hj, htable k hk] at heq
    exact h.inj j k hj hk heq
  · intro b hb
    rw [isBlockMapped_none] at hb ⊢
    intro j hj
    have hbj := hb j hj
    rwa [htable j hj] at hbj

/-- The search of update_bmt finds an entry of a mapped block. -/
theorem find_mapped (hc : Counts c) {bmt : BmtStruct} (h : MapInv c bmt) {b : ℕ}
    (hb : isBlockMapped bmt b ≠ none) :
    ∃ i, (List.range c.bmtBlockCount).find? (fun i => (bmt.table i).mappedIndex == b) = some i ∧
      i < bmt.mappedCount ∧ (bmt.table i).mappedIndex = b := by
  have hex : ∃ j, j < bmt.mappedCount ∧ (bmt.table j).mappedIndex = b := by
    by_contra hno
    exact hb (isBlockMapped_none.mpr fun i hi heq => hno ⟨i, hi, heq⟩)
  obtain ⟨j, hj, hjb⟩ := hex
  have hle := h.count_le hc.total
  cases hfind : (List.range c.bmtBlockCount).find? (fun i => (bmt.table i).mappedIndex == b) with
  | none =>
    have hnone := List.find?_eq_none.mp hfind j (List.mem_range.mpr (by omega))
    simp [hjb] at hnone
  | some i =>
    have hib : (bmt.table i).mappedIndex = b := by simpa using List.find?_some hfind
    refine ⟨i, rfl, ?_, hib⟩
    -- the first match is not behind the one found above
    by_contra hout
    obtain ⟨_, as, bs, hsplit, hbefore⟩ := List.find?_eq_some_iff_append.mp hfind
    have hmem : j ∈ as := by
      have hjr : j ∈ as ++ i :: bs := by
        rw [← hsplit]
        exact List.mem_range.mpr (by omega)
      rcases List.mem_append.mp hjr with hjas | hjrest
      · exact hjas
      · have hsorted : (as ++ i :: bs).Pairwise (· < ·) := by
          rw [← hsplit]
          exact List.pairwise_lt_range
        have htail := (List.pairwise_append.mp hsorted).2.1
        rcases List.mem_cons.mp hjrest with rfl | hjbs
        · omega
        · have := (List.pairwise_cons.mp htail).1 j hjbs
          omega
    have hno := hbefore j hmem
    simp [hjb] at hno

/-- Between calls. A loaded table leaves the pool unswept. -/
structure Inv (c : Conf) (s : St) : Prop where
  safe : AllSafe c s
  unswept : s.poolErased = false → s.bmtBlockIndex ≠ 0
  swept : s.poolErased = true → FreeErased c s ∧ MapInv c s.bmt ∧
    (s.bmtBlockIndex ≠ 0 → InPool c s.bmtBlockIndex)

/-- The offset is in the first page of its block, the one that carries the mark. -/
def FirstPage (c : Conf) (offset : ℕ) : Prop :=
  offset >>> c.pageSizeBit = offset / c.blockSize * c.pagePerBlock

/-- The updates the code is written for: of a system block; of a mapped block that
is marked bad, or is marked by this update with no failure on the table block
in between; of another block of the pool that is not migrated. -/
def OffsetOk (c : Conf) (host : Host) (s : St) (offset : ℕ) (reason : UpdateReason) : Prop :=
  let block := offset / c.blockSize
  block < c.systemBlockCount ∨
    isBlockMapped s.bmt block ≠ none ∧
      (bad c s.flash block = true ∨
        FirstPage c offset ∧ s.bmtBlockIndex ≠ 0 ∧
          (∀ tick, host.eraseOk tick s.bmtBlockIndex = true) ∧
          ∀ tick, host.write tick (s.bmtBlockIndex * c.pagePerBlock) = .ok) ∨
    isBlockMapped s.bmt block = none ∧ reason ≠ .writeFail ∧
      (bad c s.flash block = true ∨ FirstPage c offset)

/-- The condition on one call of update_bmt. -/
structure StepOk (c : Conf) (host : Host) (s : St) (offset : ℕ) (reason : UpdateReason) :
    Prop where
  swept : s.poolErased = true ∨ s.bmtBlockIndex = 0
  marks : MarksWork c host
  offset : OffsetOk c host s offset reason

theorem FoundSpec.migrated {s : St} {r : ℕ × St} (h : FoundSpec c s r) :
    MigratedSpec c s (some r.1, r.2) where
  bmt := h.bmt
  index := h.index
  safe := h.safe
  bads := h.bads
  done := by
    intro n hn
    obtain rfl := Option.some.inj hn
    refine ⟨h.swept, h.free.but _, fun _ => h.free, fun hne => ?_⟩
    obtain ⟨hpool, _, hmapped, hidx⟩ := h.found hne
    exact ⟨hpool, hmapped, hidx⟩

/-- The first half of update_bmt. -/
def replace (c : Conf) (host : Host) (fuel offset : ℕ) (reason : UpdateReason) (dat : Option Buf)
    (s : St) : Option ℕ × St :=
  if reason = .writeFail then migrateFromBad c host fuel offset dat s
  else
    let f := findAvailableBlock c host false s
    (some f.1, f.2)

theorem replace_spec (hmarks : MarksWork c host) (hc : Counts c) (fuel offset : ℕ)
    (reason : UpdateReason) (dat : Option Buf) {s : St} (h : Ready c s) :
    MigratedSpec c s (replace c host fuel offset reason dat s) ∧
      (reason ≠ .writeFail → FreeErased c (replace c host fuel offset reason dat s).2) := by
  unfold replace
  by_cases hreason : reason = .writeFail
  · rw [if_pos hreason]
    exact ⟨migrateFromBad_spec hmarks hc.pool fuel offset dat h, fun hne => absurd hreason hne⟩
  · rw [if_neg hreason]
    have hfound := findAvailableBlock_spec hmarks hc.pool false h
    exact ⟨hfound.migrated, fun _ => hfound.free⟩

/-- The mark at the end of update_bmt. -/
theorem mark_inv {s : St} {offset : ℕ} (hpe : s.poolErased = true) (hsafe : AllSafe c s)
    (hmap : MapInv c s.bmt) (hidx : s.bmtBlockIndex ≠ 0 → InPool c s.bmtBlockIndex)
    (hfree : FreeErasedBut c (offset / c.blockSize) s)
    (hblock : bad c (markBlockBadBmt c host offset s).flash (offset / c.blockSize) = true ∨
      offset / c.blockSize = s.bmtBlockIndex ∨ ¬InPool c (offset / c.blockSize)) :
    Inv c (markBlockBadBmt c host offset s) := by
  have honly : OnlyBlock c (offset / c.blockSize) s (markBlockBadBmt c host offset s) :=
    markBlockBadBmt_only offset s
  have hpe' := honly.swept.trans hpe
  refine ⟨?_, fun hfalse => absurd (hpe'.symm.trans hfalse) (by simp), fun _ => ⟨?_, ?_, ?_⟩⟩
  · intro call hcall
    rw [honly.calls] at hcall
    exact hsafe call hcall
  · refine (hfree.touch honly).close ?_
    rcases hblock with hbad | hsame | hout
    · exact Or.inl hbad
    · exact Or.inr (Or.inr (Or.inl (hsame.trans honly.index.symm)))
    · exact Or.inr (Or.inr (Or.inr hout))
  · rw [honly.bmt]
    exact hmap
  · rw [honly.index]
    exact hidx

/-- The second half of update_bmt. -/
def store (c : Conf) (host : Host) (fuel offset : ℕ) (s : St) : Option Bool × St :=
  let w := writeBmtToFlash c host fuel s
  if w.1 = some true then (some true, markBlockBadBmt c host offset w.2) else w

theorem updateBmt_eq (fuel offset : ℕ) (reason : UpdateReason) (dat : Option Buf) (s : St) :
    updateBmt c host fuel offset reason dat s =
      match (replace c host fuel offset reason dat s).1 with
      | none => (none, (replace c host fuel offset reason dat s).2)
      | some n =>
          if n = 0 then (some false, (replace c host fuel offset reason dat s).2)
          else
            let t := (replace c host fuel offset reason dat s).2
            store c host fuel offset { t with
              bmt := updateTable c t.bmt (offset / c.blockSize) n
              pageBuf := fillNandBmtBuffer c (updateTable c t.bmt (offset / c.blockSize) n)
                (clearOob c t.pageBuf) } := rfl

/-- A call in progress or done: the calls of find_available_block so far are safe,
and once it is done the invariant holds. -/
def Progress (c : Conf) {α : Type} (r : Option α × St) : Prop :=
  AllSafe c r.2 ∧ (r.1 ≠ none → Inv c r.2)

/-- Storing the table when every free block is erased. -/
theorem store_ready (hmarks : MarksWork c host) (hc : Counts c) (fuel offset : ℕ) {s : St}
    (h : Ready c s) (hmap : MapInv c s.bmt)
    (hoffset : bad c s.flash (offset / c.blockSize) = true ∨ FirstPage c offset ∨
      ¬InPool c (offset / c.blockSize)) : Progress c (store c host fuel offset s) := by
  have hw := writeBmtToFlash_spec hmarks hc.pool fuel h
  unfold store
  dsimp only
  set w := writeBmtToFlash c host fuel s with hwdef
  have hmap' : MapInv c w.2.bmt := by
    rw [hw.bmt]
    exact hmap
  by_cases htrue : w.1 = some true
  · rw [if_pos htrue]
    have hpe := hw.swept (by simp [htrue])
    have hfree := (hw.ready.swept hpe).but (offset / c.blockSize)
    have hinv : Inv c (markBlockBadBmt c host offset w.2) := by
      refine mark_inv hpe hw.ready.safe hmap' hw.ready.index hfree ?_
      by_cases hout : InPool c (offset / c.blockSize)
      · rcases hoffset with hbad | hpage | hno
        · rcases hw.keeps _ hbad with hbad' | hsame
          · exact Or.inl (markBlockBadBmt_keeps hbad')
          · exact Or.inr (Or.inl hsame)
        · exact Or.inl (markBlockBadBmt_bad hpage (hmarks _ _ (Nat.mul_le_mul_right _ hout.1)))
        · exact absurd hout hno
      · exact Or.inr (Or.inr hout)
    exact ⟨hinv.safe, fun _ => hinv⟩
  · rw [if_neg htrue]
    refine ⟨hw.ready.safe, fun hne => ?_⟩
    have hpe := hw.swept hne
    exact ⟨hw.ready.safe, fun hfalse => absurd (hpe.symm.trans hfalse) (by simp),
      fun _ => ⟨hw.ready.swept hpe, hmap', hw.ready.index⟩⟩

/-- Storing the table when the first try succeeds: the block that lost its mapping
is marked before any search. -/
theorem store_first_try (hmarks : MarksWork c host) (fuel offset : ℕ) {s : St}
    (hpe : s.poolErased = true) (hsafe : AllSafe c s) (hmap : MapInv c s.bmt)
    (hidx : s.bmtBlockIndex ≠ 0) (hpool : InPool c s.bmtBlockIndex)
    (hfree : FreeErasedBut c (offset / c.blockSize) s)
    (hblock : InPool c (offset / c.blockSize)) (hpage : FirstPage c offset)
    (herase : ∀ tick, host.eraseOk tick s.bmtBlockIndex = true)
    (hwrite : ∀ tick, host.write tick (s.bmtBlockIndex * c.pagePerBlock) = .ok) :
    Progress c (store c host fuel offset s) := by
  unfold store
  dsimp only
  cases fuel with
  | zero => exact ⟨hsafe, fun hne => absurd rfl hne⟩
  | succ fuel =>
    obtain ⟨s', hrun, honly⟩ := writeBmtToFlash_first_try hidx herase hwrite fuel
    rw [hrun, if_pos rfl]
    have hsafe' : AllSafe c s' := by
      intro call hcall
      rw [honly.calls] at hcall
      exact hsafe call hcall
    have hfree' : FreeErasedBut c (offset / c.blockSize) s' := by
      intro b hb hbpool hgood hmapped hbidx
      rw [honly.index] at hbidx
      rw [honly.bad b hbidx] at hgood
      rw [honly.bmt] at hmapped
      rw [honly.erased b hbidx]
      exact hfree b hb hbpool hgood hmapped hbidx
    have hinv : Inv c (markBlockBadBmt c host offset s') := by
      refine mark_inv (honly.swept.trans hpe) hsafe' ?_ ?_ hfree' (Or.inl ?_)
      · rw [honly.bmt]
        exact hmap
      · rw [honly.index]
        exact fun _ => hpool
      · exact markBlockBadBmt_bad hpage (hmarks _ _ (Nat.mul_le_mul_right _ hblock.1))
    exact ⟨hinv.safe, fun _ => hinv⟩

/-- An update of a block of the pool that is not mapped writes behind the entries. -/
theorem updateTable_unmapped (hc : Counts c) {bmt : BmtStruct} (h : MapInv c bmt) {b n : ℕ}
    (hb : isBlockMapped bmt b = none) (hpool : c.systemBlockCount ≤ b) (hn : n < 2 ^ 16) :
    MapInv c (updateTable c bmt b n) ∧
      ∀ b', isBlockMapped (updateTable c bmt b n) b' = none → isBlockMapped bmt b' = none := by
  rw [updateTable, if_pos hpool]
  refine setMapped_out hn ?_ h
  have hle := h.count_le hc.total
  cases hfind : (List.range c.bmtBlockCount).find? (fun i => (bmt.table i).mappedIndex == b) with
  | none => exact hle
  | some i =>
    rw [Option.getD_some]
    have hib : (bmt.table i).mappedIndex = b := by simpa using List.find?_some hfind
    by_contra hi
    exact isBlockMapped_none.mp hb i (not_le.mp hi) hib

theorem Inv.ready {s : St} (h : Inv c s) (hpe : s.poolErased = true) : Ready c s where
  unswept := fun hfalse => absurd (hpe.symm.trans hfalse) (by simp)
  swept := fun _ => (h.swept hpe).1
  index := (h.swept hpe).2.2
  safe := h.safe

/-- The table change makes every free block but one free before it. -/
theorem freeErased_remapped {n gone : ℕ} {s : St} {bmt : BmtStruct} (buf : Buf)
    (hfree : FreeErasedBut c n s) (hmap : Remapped c gone n s.bmt bmt) :
    FreeErasedBut c gone { s with bmt := bmt, pageBuf := buf } := by
  intro b hb hpool hgood hmapped hidx
  refine hfree b ?_ hpool hgood (hmap.others b hb hmapped) hidx
  rintro rfl
  exact hmap.mapped hmapped

theorem updateBmt_progress (hc : Counts c) (fuel : ℕ) {offset : ℕ} {reason : UpdateReason}
    (dat : Option Buf) {s : St} (h : Inv c s) (hok : StepOk c host s offset reason) :
    Progress c (updateBmt c host fuel offset reason dat s) := by
  have hpe : s.poolErased = true := by
    rcases hok.swept with hpe | hzero
    · exact hpe
    · by_contra hfalse
      exact h.unswept (by simpa using hfalse) hzero
  have hmarks := hok.marks
  have hmapinv := (h.swept hpe).2.1
  obtain ⟨hm, hfree⟩ := replace_spec hmarks hc fuel offset reason dat (h.ready hpe)
  rw [updateBmt_eq]
  set m := replace c host fuel offset reason dat s with hmdef
  have hindex : m.2.bmtBlockIndex ≠ 0 → InPool c m.2.bmtBlockIndex := by
    rw [hm.index]
    exact (h.swept hpe).2.2
  cases hres : m.1 with
  | none => exact ⟨hm.safe, fun hne => absurd rfl hne⟩
  | some n =>
    obtain ⟨hpe', hbut, hzero, hfound⟩ := hm.done n hres
    dsimp only
    by_cases hn : n = 0
    · rw [if_pos hn]
      refine ⟨hm.safe, fun _ => ⟨hm.safe,
        fun hfalse => absurd (hpe'.symm.trans hfalse) (by simp), fun _ => ⟨hzero hn, ?_, hindex⟩⟩⟩
      rw [hm.bmt]
      exact hmapinv
    · rw [if_neg hn]
      obtain ⟨hnpool, hnfree, _⟩ := hfound hn
      have hn16 : n < 2 ^ 16 := lt_of_lt_of_le hnpool.2 hc.index
      -- with every free block erased the rest is as after any table change
      have hstore : ∀ bmt, MapInv c bmt →
          FreeErased c { m.2 with
            bmt := bmt, pageBuf := fillNandBmtBuffer c bmt (clearOob c m.2.pageBuf) } →
          (bad c m.2.flash (offset / c.blockSize) = true ∨ FirstPage c offset ∨
            ¬InPool c (offset / c.blockSize)) →
          Progress c (store c host fuel offset { m.2 with
            bmt := bmt, pageBuf := fillNandBmtBuffer c bmt (clearOob c m.2.pageBuf) }) :=
        fun bmt hinv hfree' hoff => store_ready hmarks hc fuel offset
          ⟨fun hfalse => absurd (hpe'.symm.trans hfalse) (by simp), fun _ => hfree', hindex, hm.safe⟩
          hinv hoff
      rw [hm.bmt]
      by_cases hsys : offset / c.blockSize < c.systemBlockCount
      · have hnot : ¬offset / c.blockSize ≥ c.systemBlockCount := not_le.mpr hsys
        have hout : ¬InPool c (offset / c.blockSize) := fun hin => hnot hin.1
        have hre := append_remapped hc hmapinv hnpool hnfree (offset / c.blockSize)
          (offset / c.blockSize)
        rw [updateTable, if_neg hnot]
        refine hstore _ hre.inv ?_ (Or.inr (Or.inr hout))
        exact (freeErased_remapped _ hbut (by rw [hm.bmt]; exact hre)).close
          (Or.inr (Or.inr (Or.inr hout)))
      rcases hok.offset with hsys' | ⟨hmapped, hcase⟩ | ⟨hunmapped, hreason, hcase⟩
      · exact absurd hsys' hsys
      · obtain ⟨i, hfind, hi, hib⟩ := find_mapped hc hmapinv hmapped
        have hpool : InPool c (offset / c.blockSize) := hib ▸ hmapinv.pool i hi
        have hre := setMapped_remapped hc hmapinv hnpool hnfree hi hib
        rw [updateTable, if_pos hpool.1, hfind, Option.getD_some]
        have hbut' := fun buf => freeErased_remapped buf hbut
          (show Remapped c _ n m.2.bmt _ by rw [hm.bmt]; exact hre)
        rcases hcase with hbad | ⟨hpage, hidx, herase, hwrite⟩
        · have hbad' := hm.bads _ hbad
          exact hstore _ hre.inv ((hbut' _).close (Or.inl hbad')) (Or.inl hbad')
        · rw [← hm.index] at hidx herase hwrite
          exact store_first_try hmarks fuel offset hpe' hm.safe hre.inv hidx (hindex hidx)
            (hbut' _) hpool hpage herase hwrite
      · have hsame := updateTable_unmapped hc hmapinv hunmapped (not_lt.mp hsys) hn16
        refine hstore _ hsame.1 ?_ ?_
        · intro b hb hgood hmapped' hidx'
          refine hfree hreason b hb hgood ?_ hidx'
          rw [hm.bmt]
          exact hsame.2 b hmapped'
        · rcases hcase with hbad | hpage
          · exact Or.inl (hm.bads _ hbad)
          · exact Or.inr (Or.inl hpage)

/-- Searching and loading a table call nothing else. -/
theorem markLoaded_frame (is : List ℕ) (s : St) :
    (markLoaded c host is s).calls = s.calls ∧
      (markLoaded c host is s).poolErased = s.poolErased := by
  induction is generalizing s with
  | nil => exact ⟨rfl, rfl⟩
  | cons i is ih =>
    rw [markLoaded]
    split
    · exact ih s
    · exact ih _

theorem loadBmtData_frame (c : Conf) (host : Host) (n : ℕ) (s : St) :
    (loadBmtData c host n s).2.calls = s.calls ∧
      (loadBmtData c host n s).2.poolErased = s.poolErased := by
  induction n generalizing s with
  | zero => exact ⟨rfl, rfl⟩
  | succ n ih =>
    rw [loadBmtData]
    dsimp only
    split
    · exact ih s
    · split
      · exact markLoaded_frame _ _
      · exact ih _

/-- What the scan of the pool keeps, with the blocks still to be scanned. -/
structure ScanSpec (c : Conf) (s s' : St) : Prop where
  inv : MapInv c s'.bmt
  calls : s'.calls = s.calls
  swept : s'.poolErased = s.poolErased
  index : s'.bmtBlockIndex = s.bmtBlockIndex

theorem scanPool_spec (host : Host) (hc : Counts c) (is : List ℕ) (hsorted : is.Pairwise (· < ·))
    (hrange : ∀ i ∈ is, i < c.bmtBlockCount) (s : St) (h : MapInv c s.bmt)
    (hahead : ∀ i ∈ is, isBlockMapped s.bmt (c.systemBlockCount + i) = none) :
    ScanSpec c s (scanPool c host is s) := by
  induction is generalizing s with
  | nil => exact ⟨h, rfl, rfl, rfl⟩
  | cons i is ih =>
    obtain ⟨hi, hsorted'⟩ := List.pairwise_cons.mp hsorted
    have hrange' : ∀ j ∈ is, j < c.bmtBlockCount := fun j hj => hrange j (List.mem_cons_of_mem _ hj)
    have hahead' : ∀ j ∈ is, isBlockMapped s.bmt (c.systemBlockCount + j) = none :=
      fun j hj => hahead j (List.mem_cons_of_mem _ hj)
    rw [scanPool]
    dsimp only
    split
    · exact ih hsorted' hrange' s h hahead'
    · set t := (nandReadPageBmt c host (c.pageAddr (c.systemBlockCount + i)) s).2 with ht
      have hsame : t.bmt = s.bmt := rfl
      split
      · exact { ih hsorted' hrange' t h hahead' with }
      · split
        · exact { ih hsorted' hrange' t h hahead' with }
        · rename_i hbelow _
          -- a mapped block is never one of the system part
          have hnone : isBlockMapped t.bmt (getBadIndexFromOob c t.pageBuf) = none := by
            rw [isBlockMapped_none]
            intro j hj heq
            have hpool := (h.pool j hj).1
            rw [hsame] at heq
            omega
          have hin : InPool c (c.systemBlockCount + i) := by
            have hlt := hrange i List.mem_cons_self
            have htotal := hc.total
            unfold InPool
            omega
          rw [hnone]
          have hre := append_remapped hc h hin (hahead i List.mem_cons_self)
            (getBadIndexFromOob c t.pageBuf) 0
          refine { ih hsorted' hrange' _ hre.inv ?_ with }
          intro j hj
          have hij := hi j hj
          exact append_none hc h hin _ (by omega) (hahead' j hj)

theorem reconstructBmt_progress (hmarks : MarksWork c host) (hc : Counts c) (fuel : ℕ) (s : St)
    (hcalls : s.calls = []) (hindex : s.bmtBlockIndex = 0) (hpe : s.poolErased = false) :
    Progress c (reconstructBmt c host fuel s) := by
  unfold reconstructBmt
  dsimp only
  have hempty : MapInv c ⟨zeroTable c s.bmt, bmtVersion, 0, 0⟩ :=
    ⟨fun i hi => absurd hi (Nat.not_lt_zero i), fun i _ hi => absurd hi (Nat.not_lt_zero i)⟩
  have hnone : ∀ b, isBlockMapped ⟨zeroTable c s.bmt, bmtVersion, 0, 0⟩ b = none :=
    fun b => isBlockMapped_none.mpr fun i hi => absurd hi (Nat.not_lt_zero i)
  have hscan := scanPool_spec host hc (List.range c.bmtBlockCount) List.pairwise_lt_range
    (fun i hi => List.mem_range.mp hi) { s with bmt := ⟨zeroTable c s.bmt, bmtVersion, 0, 0⟩ }
    hempty (fun i _ => hnone _)
  set t := scanPool c host (List.range c.bmtBlockCount)
    { s with bmt := ⟨zeroTable c s.bmt, bmtVersion, 0, 0⟩ } with ht
  have htindex : t.bmtBlockIndex = 0 := hscan.index.trans hindex
  have htpe : t.poolErased = false := hscan.swept.trans hpe
  have htcalls : t.calls = [] := hscan.calls.trans hcalls
  have hready : Ready c { t with pageBuf := fillNandBmtBuffer c t.bmt (clearOob c t.pageBuf) } :=
    { unswept := fun _ => htindex
      swept := fun htrue => absurd (htpe.symm.trans htrue) (by simp)
      index := fun hne => absurd htindex hne
      safe := fun call hcall => by
        have hcall' : call ∈ t.calls := hcall
        rw [htcalls] at hcall'
        exact absurd hcall' List.not_mem_nil }
  have hw := writeBmtToFlash_spec hmarks hc.pool fuel hready
  refine ⟨hw.ready.safe, fun hne => ?_⟩
  have hpe' := hw.swept (by simpa using hne)
  refine ⟨hw.ready.safe, fun hfalse => absurd (hpe'.symm.trans hfalse) (by simp),
    fun _ => ⟨hw.ready.swept hpe', ?_, hw.ready.index⟩⟩
  show MapInv c (writeBmtToFlash c host fuel _).2.bmt
  rw [hw.bmt]
  exact hscan.inv

theorem initBmt_progress (hmarks : MarksWork c host) (fuel : ℕ) {s : St} (hcalls : s.calls = []) :
    AllSafe c (initBmt c host fuel s).2 ∧
      ((initBmt c host fuel s).1 = some true → Counts c ∧ Inv c (initBmt c host fuel s).2) := by
  have hnil : ∀ s' : St, s'.calls = [] → AllSafe c s' := by
    intro s' h call hcall
    rw [h] at hcall
    exact absurd hcall List.not_mem_nil
  unfold initBmt
  by_cases hsize : 0 < c.bmtBlockCount ∧ c.bmtBlockCount < maxBmtSize
  · rw [if_pos hsize]
    have hc := counts_of_size hsize.1 hsize.2
    dsimp only
    set s0 : St := { s with poolErased := _, bmt := _, pageBuf := _ } with hs0
    obtain ⟨hcalls', hpe⟩ := loadBmtData_frame c host c.bmtBlockCount s0
    set r := loadBmtData c host c.bmtBlockCount s0 with hr
    have hrcalls : r.2.calls = [] := hcalls'.trans hcalls
    by_cases hload : r.1 ≠ 0
    · rw [if_pos hload]
      refine ⟨hnil _ hrcalls, fun _ => ⟨hc, hnil _ hrcalls, fun _ => hload, fun htrue => ?_⟩⟩
      exact absurd (hpe.symm.trans htrue) (by simp [hs0])
    · rw [if_neg hload]
      have hprog := reconstructBmt_progress hmarks hc fuel { r.2 with bmtBlockIndex := r.1 }
        hrcalls (not_not.mp hload) hpe
      exact ⟨hprog.1, fun htrue => ⟨hc, hprog.2 (by simp [htrue])⟩⟩
  · rw [if_neg hsize]
    exact ⟨hnil _ hcalls, fun hfalse => by simp at hfalse⟩

/-- The states between calls, after init_bmt has succeeded. -/
inductive Run (c : Conf) : St → Prop
  | init (host : Host) (fuel : ℕ) (s s' : St) (hcalls : s.calls = []) (hmarks : MarksWork c host)
      (hinit : initBmt c host fuel s = (some true, s')) : Run c s'
  | update (host : Host) (fuel offset : ℕ) (reason : UpdateReason) (dat : Option Buf) (s s' : St)
      (ret : Bool) (hrun : Run c s) (hok : StepOk c host s offset reason)
      (hupdate : updateBmt c host fuel offset reason dat s = (some ret, s')) : Run c s'

theorem run_inv {s : St} (h : Run c s) : Counts c ∧ Inv c s := by
  induction h with
  | init host fuel s s' hcalls hmarks hinit =>
    have hprog := (initBmt_progress hmarks fuel hcalls).2
    rw [hinit] at hprog
    exact hprog rfl
  | update host fuel offset reason dat s s' ret _ hok hupdate ih =>
    have hprog := updateBmt_progress ih.1 fuel dat ih.2 hok
    rw [hupdate] at hprog
    exact ⟨ih.1, hprog.2 (by simp)⟩

/-- In every run, and in a call that has not ended, every call of
find_available_block is safe. -/
theorem find_available_block_safe :
    (∀ s, s.calls = [] → MarksWork c host → ∀ fuel, AllSafe c (initBmt c host fuel s).2) ∧
    ∀ s, Run c s → ∀ fuel offset reason dat, StepOk c host s offset reason →
      AllSafe c (updateBmt c host fuel offset reason dat s).2 := by
  constructor
  · intro s hcalls hmarks fuel
    exact (initBmt_progress hmarks fuel hcalls).1
  · intro s hrun fuel offset reason dat hok
    obtain ⟨hc, hinv⟩ := run_inv hrun
    exact (updateBmt_progress hc fuel dat hinv hok).1

/-- A controller without failures. -/
def quietHost : Host where
  eraseOk _ _ := true
  write _ _ := .ok
  markOk _ _ := true
  scrap _ _ _ := 0
  cells _ old buf := fun i => old i &&& buf i
  read _ page := (true, page)
  stack _ := 0

/-- Power-on with the given flash. -/
def powerOn (flash : Flash) : St where
  flash := flash
  bmt := ⟨fun _ => ⟨0, 0⟩, 0, 0, 0⟩
  bmtBlockIndex := 0
  poolErased := false
  pageBuf _ := 0
  tick := 0
  calls := []

/-- A chip of 2048 blocks that holds an empty table in its last block. -/
def tableFlash (c : Conf) : Flash where
  page p := if p = 2047 * c.pagePerBlock then
      fillNandBmtBuffer c ⟨fun _ => ⟨0, 0⟩, 1, 0, 0⟩ fun _ => 0xff
    else fun _ => 0xff
  erased b := b != 2047

/-- An update of block 0, the first after the table was loaded: no operation fails,
and the sweep erases the block of the table. -/
theorem first_update_erases_table :
    let s := (initBmt ⟨0, 80⟩ quietHost 1 (powerOn (tableFlash ⟨0, 80⟩))).2
    (initBmt ⟨0, 80⟩ quietHost 1 (powerOn (tableFlash ⟨0, 80⟩))).1 = some true ∧
      ((updateBmt ⟨0, 80⟩ quietHost 1 0 .eraseFail none s).2.calls.any fun call =>
        decide (call.bmtBlockIndex = 2047 ∧ 2047 ∈ call.erases)) = true := by
  decide +kernel

/-- A blank chip: the table is built, written to the last block, and block 0 is
replaced. -/
theorem find_available_block_safe_blank :
    AllSafe ⟨0, 80⟩ (updateBmt ⟨0, 80⟩ quietHost 1 0 .eraseFail none
      (initBmt ⟨0, 80⟩ quietHost 1 (powerOn ⟨fun _ _ => 0xff, fun _ => true⟩)).2).2 := by
  have hmarks : MarksWork ⟨0, 80⟩ quietHost := fun _ _ _ => rfl
  have hinit : (initBmt ⟨0, 80⟩ quietHost 1 (powerOn ⟨fun _ _ => 0xff, fun _ => true⟩)).1 =
      some true := by decide +kernel
  have hpe : (initBmt ⟨0, 80⟩ quietHost 1
      (powerOn ⟨fun _ _ => 0xff, fun _ => true⟩)).2.poolErased = true := by decide +kernel
  refine find_available_block_safe.2 _
    (Run.init quietHost 1 (powerOn ⟨fun _ _ => 0xff, fun _ => true⟩) _ rfl hmarks
      (Prod.ext hinit rfl)) 1 0 .eraseFail none ⟨Or.inl hpe, hmarks, Or.inl ?_⟩
  decide +kernel

end Iot7688.Bmt
