import Iot7688.BmtRun
import Iot7688.Lib.Attempts

/-!
The retries of migrate_from_bad and write_bmt_to_flash. A failed attempt marks its target
bad, which takes it out of the blocks that can be found; blocks are never added to them. So
the attempts end, each with a target of its own.
-/
namespace Iot7688.Bmt

open Lib

section

variable (c : Conf) (host : Host)

/-- A block of the pool that is marked bad is reported bad afterwards. -/
def MarksHold : Prop :=
  ∀ b, InPool c b → ∀ s, bad c (markBlockBadBmt c host (c.offset b) s).flash b = true

/-- The good unmapped blocks of the pool that do not hold the table. -/
def goodBlocks (s : St) : Finset ℕ :=
  (Finset.Ico c.systemBlockCount c.totalBlockCount).filter fun b => isAvailable c s b = true

/-- The blocks that find_available_block handed out between two states. -/
def targets (s t : St) : List ℕ :=
  ((t.calls.drop s.calls.length).map fun call => call.ret).filter fun b => b != 0

/-- migrate_from_bad without its calls of itself. -/
def migrateAttempt (offset : ℕ) (writeDat : Option Buf) (s : St) : Option ℕ × St :=
  let errorBlock := offset / c.blockSize
  let errorPage := offset / c.pageSize % c.pagePerBlock
  let cleared : Buf := fun i =>
    if c.pageSize ≤ i ∧ i < c.pageSize + maxOobSize then 0xff else s.pageBuf i
  let f := findAvailableBlock c host false { s with pageBuf := cleared }
  if f.1 = 0 then (some 0, f.2)
  else
    let w := nandWritePageBmt c host (c.pageAddr f.1 + errorPage) writeDat
      { f.2 with pageBuf := indexed c errorBlock f.2.pageBuf }
    if w.1 then
      let m := migratePages c host errorBlock errorPage f.1 (List.range c.pagePerBlock) w.2
      (if m.1 then some f.1 else none, m.2)
    else (none, markBlockBadBmt c host (c.offset f.1) w.2)

/-- write_bmt_to_flash without its calls of itself. -/
def writeAttempt (s : St) : Option Bool × St :=
  let needErase := s.bmtBlockIndex ≠ 0
  let s1 :=
    if needErase then s
    else
      let f := findAvailableBlock c host true s
      { f.2 with bmtBlockIndex := f.1 }
  if s1.bmtBlockIndex = 0 then (some false, s1)
  else
    let e := if needErase then nandEraseBmt c host (c.offset s1.bmtBlockIndex) s1 else (true, s1)
    if e.1 then
      let w := nandWritePageBmt c host (c.pageAddr s1.bmtBlockIndex) none e.2
      if w.1 then (some true, w.2)
      else
        (none, { markBlockBadBmt c host (c.offset s1.bmtBlockIndex) w.2 with bmtBlockIndex := 0 })
    else
      (none, { markBlockBadBmt c host (c.offset s1.bmtBlockIndex) e.2 with bmtBlockIndex := 0 })

end

variable {c : Conf} {host : Host}

theorem MarksWork.hold (h : MarksWork c host) : MarksHold c host :=
  fun _ hb _ => markBlockBadBmt_offset_bad h hb.1

theorem migrateFromBad_eq_attempts (fuel offset : ℕ) (dat : Option Buf) (s : St) :
    migrateFromBad c host fuel offset dat s = attempts (migrateAttempt c host offset dat) fuel s := by
  induction fuel generalizing s with
  | zero => rfl
  | succ fuel ih =>
    rw [migrateFromBad, attempts]
    unfold migrateAttempt
    dsimp only
    split
    · rfl
    · split
      · split
        · rfl
        · exact ih _
      · exact ih _

theorem writeBmtToFlash_eq_attempts (fuel : ℕ) (s : St) :
    writeBmtToFlash c host fuel s = attempts (writeAttempt c host) fuel s := by
  induction fuel generalizing s with
  | zero => rfl
  | succ fuel ih =>
    rw [writeBmtToFlash, attempts]
    unfold writeAttempt
    dsimp only
    by_cases hidx : s.bmtBlockIndex = 0
    · simp only [if_neg (not_not.mpr hidx)]
      split
      · rfl
      · simp only [if_true]
        split
        · rfl
        · exact ih _
    · simp only [if_pos hidx, if_neg hidx]
      split
      · split
        · rfl
        · exact ih _
      · exact ih _

theorem writeAttempt_failed {s : St} (h : (writeAttempt c host s).1 = some false) :
    (writeAttempt c host s).2.bmtBlockIndex = 0 := by
  unfold writeAttempt at h ⊢
  dsimp only at h ⊢
  by_cases hidx : s.bmtBlockIndex = 0
  · simp only [if_neg (not_not.mpr hidx)] at h ⊢
    split at h
    · rwa [if_pos ‹_›]
    · simp only [if_true] at h
      split at h
      · cases h
      · cases h
  · simp only [if_pos hidx, if_neg hidx] at h
    split at h
    · split at h
      · cases h
      · cases h
    · cases h

/-- A write of the table that fails leaves the table without a block. -/
theorem writeBmtToFlash_failed {fuel : ℕ} {s : St}
    (h : (writeBmtToFlash c host fuel s).1 = some false) :
    (writeBmtToFlash c host fuel s).2.bmtBlockIndex = 0 := by
  rw [writeBmtToFlash_eq_attempts] at h ⊢
  obtain ⟨u, hu⟩ := attempts_result (Prod.ext h rfl)
  rw [← congrArg Prod.snd hu]
  exact writeAttempt_failed (congrArg Prod.fst hu)

theorem mem_goodBlocks {s : St} {b : ℕ} : b ∈ goodBlocks c s ↔
    InPool c b ∧ b ≠ s.bmtBlockIndex ∧ bad c s.flash b = false ∧ isBlockMapped s.bmt b = none := by
  simp [goodBlocks, InPool, isAvailable, bad, and_assoc]

/-- Blocks that are bad stay bad, so nothing becomes good. -/
theorem goodBlocks_subset {s t : St} (hbmt : t.bmt = s.bmt)
    (hindex : t.bmtBlockIndex = s.bmtBlockIndex)
    (hbads : ∀ b, bad c s.flash b = true → bad c t.flash b = true) :
    goodBlocks c t ⊆ goodBlocks c s := by
  intro b hb
  rw [mem_goodBlocks, hbmt, hindex] at hb
  obtain ⟨hpool, hne, hgood, hfree⟩ := hb
  refine mem_goodBlocks.mpr ⟨hpool, hne, ?_, hfree⟩
  by_contra hbad
  have hbad' := hbads b (by simpa using hbad)
  simp [hgood] at hbad'

theorem goodBlocks_card_le (hc : Counts c) (s : St) :
    (goodBlocks c s).card ≤ c.bmtBlockCount := by
  have hle := Finset.card_filter_le (Finset.Ico c.systemBlockCount c.totalBlockCount)
    fun b => isAvailable c s b = true
  rw [Nat.card_Ico] at hle
  have htotal := hc.total
  unfold goodBlocks
  omega

/-- Steps that hand out good blocks, each at most once. -/
structure Tried (c : Conf) (s t : St) : Prop where
  calls : s.calls <+: t.calls
  nodup : (targets s t).Nodup
  good : ∀ b ∈ targets s t, b ∈ goodBlocks c s

theorem targets_append {s t : St} {calls : List FindCall} (h : t.calls = s.calls ++ calls) :
    targets s t = (calls.map fun call => call.ret).filter fun b => b != 0 := by
  rw [targets, h, List.drop_left]

theorem Tried.of_calls_eq {s t : St} (h : t.calls = s.calls) : Tried c s t := by
  have htargets : targets s t = [] :=
    targets_append (show t.calls = s.calls ++ [] by rw [h, List.append_nil])
  refine ⟨h ▸ List.prefix_rfl, ?_, ?_⟩
  · rw [htargets]
    exact List.nodup_nil
  · rw [htargets]
    exact fun b hb => absurd hb List.not_mem_nil

theorem Tried.of_call {s t : St} {call : FindCall} (h : t.calls = s.calls ++ [call])
    (hgood : call.ret ≠ 0 → call.ret ∈ goodBlocks c s) : Tried c s t := by
  have htargets := targets_append h
  by_cases hret : call.ret = 0
  · have hnil : targets s t = [] := by simp [htargets, hret]
    refine ⟨h ▸ List.prefix_append _ _, ?_, ?_⟩
    · rw [hnil]
      exact List.nodup_nil
    · rw [hnil]
      exact fun b hb => absurd hb List.not_mem_nil
  · have hone : targets s t = [call.ret] := by simp [htargets, hret]
    refine ⟨h ▸ List.prefix_append _ _, ?_, ?_⟩
    · rw [hone]
      exact List.nodup_singleton _
    · rw [hone]
      intro b hb
      rw [List.mem_singleton.mp hb]
      exact hgood hret

/-- A failed attempt in front: its target is not found again. -/
theorem Tried.again {s t u : St} {call : FindCall} (h : Tried c t u)
    (hcall : t.calls = s.calls ++ [call]) (hret : call.ret ≠ 0) (hin : call.ret ∈ goodBlocks c s)
    (hless : goodBlocks c t ⊆ (goodBlocks c s).erase call.ret) : Tried c s u := by
  obtain ⟨calls, hcalls⟩ := h.calls
  have hu : u.calls = s.calls ++ (call :: calls) := by
    rw [← hcalls, hcall, List.append_assoc]
    rfl
  have htargets : targets s u = call.ret :: targets t u := by
    rw [targets_append hu, targets_append hcalls.symm, List.map_cons,
      List.filter_cons_of_pos (by simpa using hret)]
  refine ⟨⟨_, hu.symm⟩, ?_, ?_⟩
  · rw [htargets, List.nodup_cons]
    refine ⟨fun hmem => ?_, h.nodup⟩
    exact Finset.notMem_erase _ _ (hless (h.good _ hmem))
  · rw [htargets]
    intro b hb
    rcases List.mem_cons.mp hb with rfl | hb
    · exact hin
    · exact Finset.mem_of_mem_erase (hless (h.good b hb))

theorem Tried.of_eq {s t u : St} (h : Tried c t u) (hcalls : t.calls = s.calls)
    (hless : goodBlocks c t ⊆ goodBlocks c s) : Tried c s u := by
  have htargets : targets s u = targets t u := by rw [targets, targets, hcalls]
  exact ⟨hcalls ▸ h.calls, htargets ▸ h.nodup, fun b hb => hless (h.good b (htargets ▸ hb))⟩

/-- A search, whatever is known of the state. -/
structure Searched (c : Conf) (s : St) (r : ℕ × St) : Prop where
  bmt : r.2.bmt = s.bmt
  index : r.2.bmtBlockIndex = s.bmtBlockIndex
  bads : ∀ b, bad c s.flash b = true → bad c r.2.flash b = true
  call : ∃ call, call.ret = r.1 ∧ r.2.calls = s.calls ++ [call]
  found : r.1 ≠ 0 → r.1 ∈ goodBlocks c r.2
  none : r.1 = 0 → goodBlocks c r.2 = ∅

theorem mem_poolBlocks_of_inPool (hc : Counts c) (startFromEnd : Bool) {b : ℕ} (hb : InPool c b) :
    b ∈ poolBlocks c startFromEnd := by
  have htotal := hc.total
  obtain ⟨hlow, hhigh⟩ := hb
  rw [poolBlocks, List.mem_map]
  cases startFromEnd with
  | true =>
    refine ⟨c.totalBlockCount - 1 - b, List.mem_range.mpr (by omega), ?_⟩
    rw [if_pos rfl]
    omega
  | false =>
    refine ⟨b - c.systemBlockCount, List.mem_range.mpr (by omega), ?_⟩
    rw [if_neg (by decide)]
    omega

theorem findAvailableBlock_searched (hc : Counts c) (host : Host) (startFromEnd : Bool) (s : St) :
    Searched c s (findAvailableBlock c host startFromEnd s) := by
  have hkeeps : SweepKeeps c s (sweepPool c host s).2 := sweepPool_keeps s
  unfold findAvailableBlock
  dsimp only
  set r := sweepPool c host s with hr
  have hgood : ∀ calls b, b ∈ goodBlocks c { r.2 with calls := calls } ↔
      InPool c b ∧ isAvailable c r.2 b = true := fun calls b => by
    simp [goodBlocks, InPool, isAvailable]
  refine ⟨hkeeps.bmt, hkeeps.index, hkeeps.bads, ⟨_, rfl, by rw [hkeeps.calls]⟩, ?_, ?_⟩
  · intro hne
    cases hfind : (poolBlocks c startFromEnd).find? (isAvailable c r.2) with
    | none => exact absurd (by rw [hfind]; rfl) hne
    | some b =>
      refine (hgood _ _).mpr ?_
      exact ⟨mem_poolBlocks hc.total (List.mem_of_find?_eq_some hfind), List.find?_some hfind⟩
  · intro hzero
    refine Finset.eq_empty_of_forall_notMem fun b hb => ?_
    obtain ⟨hpool, havail⟩ := (hgood _ b).mp hb
    cases hfind : (poolBlocks c startFromEnd).find? (isAvailable c r.2) with
    | none =>
      exact absurd havail
        (List.find?_eq_none.mp hfind b (mem_poolBlocks_of_inPool hc startFromEnd hpool))
    | some b' =>
      rw [hfind, Option.getD_some] at hzero
      have hpool' := mem_poolBlocks hc.total (List.mem_of_find?_eq_some hfind)
      have hsystem := hc.system
      have hlow := hpool'.1
      omega

theorem Searched.subset {s : St} {r : ℕ × St} (h : Searched c s r) :
    goodBlocks c r.2 ⊆ goodBlocks c s := goodBlocks_subset h.bmt h.index h.bads

/-- The attempt on the block found has failed and the block is marked bad. -/
theorem Searched.lost {s t : St} {r : ℕ × St} (h : Searched c s r)
    (honly : OnlyBlock c r.1 r.2 t) (hbad : bad c t.flash r.1 = true) :
    goodBlocks c t ⊆ (goodBlocks c s).erase r.1 := by
  intro b hb
  obtain ⟨hpool, hidx, hgood, hfree⟩ := mem_goodBlocks.mp hb
  have hne : b ≠ r.1 := by
    rintro rfl
    exact absurd (hbad.symm.trans hgood) (by decide)
  rw [honly.index] at hidx
  rw [honly.bad b hne] at hgood
  rw [honly.bmt] at hfree
  exact Finset.mem_erase.mpr ⟨hne, h.subset (mem_goodBlocks.mpr ⟨hpool, hidx, hgood, hfree⟩)⟩

/-- Between s and t an attempt has failed on a good block, which is no longer good. -/
def Lost (c : Conf) (s t : St) : Prop :=
  ∃ call, t.calls = s.calls ++ [call] ∧ call.ret ≠ 0 ∧ call.ret ∈ goodBlocks c s ∧
    goodBlocks c t ⊆ (goodBlocks c s).erase call.ret

theorem Lost.tried {s t u : St} (h : Lost c s t) (htried : Tried c t u) : Tried c s u := by
  obtain ⟨call, hcalls, hret, hin, hless⟩ := h
  exact htried.again hcalls hret hin hless

theorem Lost.card_lt {s t : St} (h : Lost c s t) :
    (goodBlocks c t).card < (goodBlocks c s).card := by
  obtain ⟨call, _, _, hin, hless⟩ := h
  exact lt_of_le_of_lt (Finset.card_le_card hless) (Finset.card_erase_lt_of_mem hin)

theorem Lost.ne_empty {s t : St} (h : Lost c s t) : goodBlocks c s ≠ ∅ := by
  obtain ⟨call, _, _, hin, _⟩ := h
  exact Finset.ne_empty_of_mem hin

theorem Searched.lost_call {s t : St} {r : ℕ × St} (h : Searched c s r) (hne : r.1 ≠ 0)
    (honly : OnlyBlock c r.1 r.2 t) (hbad : bad c t.flash r.1 = true) : Lost c s t := by
  obtain ⟨call, hret, hcalls⟩ := h.call
  refine ⟨call, honly.calls.trans hcalls, hret ▸ hne, hret ▸ h.subset (h.found hne), ?_⟩
  rw [hret]
  exact h.lost honly hbad

theorem Searched.tried {s t : St} {r : ℕ × St} (h : Searched c s r) (hcalls : t.calls = r.2.calls) :
    Tried c s t := by
  obtain ⟨call, hret, hcall⟩ := h.call
  exact Tried.of_call (hcalls.trans hcall) fun hne => h.subset (hret ▸ h.found (hret ▸ hne))

/-- The end of a migration: it fails at once if there is no good block, and only when there is
none left. -/
structure MigrationEnd (c : Conf) (s : St) (n : ℕ) (t : St) : Prop where
  tried : Tried c s t
  empty : goodBlocks c s = ∅ → n = 0
  failed : n = 0 → goodBlocks c t = ∅

theorem migrateAttempt_spec (hmarks : MarksHold c host) (hc : Counts c) (offset : ℕ)
    (dat : Option Buf) (s : St) :
    let r := migrateAttempt c host offset dat s
    (∀ n, r.1 = some n → MigrationEnd c s n r.2) ∧ (r.1 = none → Lost c s r.2) := by
  unfold migrateAttempt
  dsimp only
  set s0 : St := { s with pageBuf := _ } with hs0
  have hsearch : Searched c s (findAvailableBlock c host false s0) :=
    { findAvailableBlock_searched hc host false s0 with }
  set f := findAvailableBlock c host false s0 with hf
  by_cases hnone : f.1 = 0
  · rw [if_pos hnone]
    refine ⟨fun n hn => ?_, fun hn => (by cases hn)⟩
    exact ⟨hsearch.tried rfl, fun _ => (Option.some.inj hn).symm, fun _ => hsearch.none hnone⟩
  · rw [if_neg hnone]
    have hgood := hsearch.found hnone
    have hpool := (mem_goodBlocks.mp hgood).1
    set t : St := { f.2 with pageBuf := _ } with ht
    have hpage : (c.pageAddr f.1 + offset / c.pageSize % c.pagePerBlock) / c.pagePerBlock = f.1 :=
      page_block_add (Nat.mod_lt _ pagePerBlock_pos)
    have hwrite : OnlyBlock c f.1 f.2 (nandWritePageBmt c host
        (c.pageAddr f.1 + offset / c.pageSize % c.pagePerBlock) dat t).2 :=
      { nandWritePageBmt_only dat t hpage with }
    split
    · obtain ⟨honly, hfail⟩ := migratePages_only (offset / c.blockSize)
        (offset / c.pageSize % c.pagePerBlock) (hmarks f.1 hpool) (List.range c.pagePerBlock)
        (fun p hp => List.mem_range.mp hp) (nandWritePageBmt c host
          (c.pageAddr f.1 + offset / c.pageSize % c.pagePerBlock) dat t).2
      have hboth := hwrite.trans honly
      split
      · refine ⟨fun n hn => ?_, fun hn => (by cases hn)⟩
        obtain rfl := Option.some.inj hn
        exact ⟨hsearch.tried hboth.calls,
          fun hempty => absurd hempty (Finset.ne_empty_of_mem (hsearch.subset hgood)),
          fun hzero => absurd hzero hnone⟩
      · rename_i hfalse
        refine ⟨fun n hn => (by cases hn), fun _ => ?_⟩
        exact hsearch.lost_call hnone hboth (hfail (by simpa using hfalse))
    · refine ⟨fun n hn => (by cases hn), fun _ => ?_⟩
      exact hsearch.lost_call hnone (hwrite.trans (markBlockBadBmt_offset_only _ _))
        (hmarks f.1 hpool _)

/-- A migration ends. -/
theorem migrateFromBad_ends (hmarks : MarksHold c host) (hc : Counts c) (offset : ℕ)
    (dat : Option Buf) (s : St) : ∃ n t, MigrationEnd c s n t ∧
      ∀ fuel, c.bmtBlockCount < fuel → migrateFromBad c host fuel offset dat s = (some n, t) := by
  have hspec := migrateAttempt_spec hmarks hc offset dat
  obtain ⟨n, t, hend, hrun⟩ := attempts_ends (P := fun _ => True)
    (fun s => (goodBlocks c s).card) (fun s n _ hn => (hspec s).1 n hn)
    (fun s _ hnone => ⟨trivial, ((hspec s).2 hnone).card_lt, fun n t hend =>
      ⟨((hspec s).2 hnone).tried hend.tried,
        fun hempty => absurd hempty ((hspec s).2 hnone).ne_empty, hend.failed⟩⟩) (s := s) trivial
  refine ⟨n, t, hend, fun fuel hfuel => ?_⟩
  rw [migrateFromBad_eq_attempts]
  exact hrun fuel (lt_of_le_of_lt (goodBlocks_card_le hc s) hfuel)

/-- The end of a write of the table: without a good block it succeeds only in the block that
holds the table already, and it fails only when no good block is left. -/
structure WriteEnd (c : Conf) (s : St) (done : Bool) (t : St) : Prop where
  tried : Tried c s t
  empty : goodBlocks c s = ∅ → done = true →
    s.bmtBlockIndex ≠ 0 ∧ t.bmtBlockIndex = s.bmtBlockIndex
  failed : done = false → goodBlocks c t = ∅ ∧ t.bmtBlockIndex = 0

/-- Between s and t the table has lost its block. -/
def LostTable (c : Conf) (s t : St) : Prop :=
  s.bmtBlockIndex ≠ 0 ∧ t.bmtBlockIndex = 0 ∧ t.calls = s.calls ∧
    goodBlocks c t ⊆ goodBlocks c s

theorem writeAttempt_search (hmarks : MarksHold c host) (hc : Counts c) {s : St}
    (hidx : s.bmtBlockIndex = 0) :
    let r := writeAttempt c host s
    (∀ done, r.1 = some done → WriteEnd c s done r.2) ∧
      (r.1 = none → Lost c s r.2 ∧ r.2.bmtBlockIndex = 0) := by
  have hsearch := findAvailableBlock_searched hc host true s
  unfold writeAttempt
  simp only [if_neg (not_not.mpr hidx)]
  set f := findAvailableBlock c host true s with hf
  have hindex : f.2.bmtBlockIndex = 0 := hsearch.index.trans hidx
  by_cases hnone : f.1 = 0
  · rw [if_pos hnone]
    refine ⟨fun done hdone => ?_, fun hn => (by cases hn)⟩
    obtain rfl := Option.some.inj hdone
    refine ⟨hsearch.tried rfl, fun _ hfalse => (by cases hfalse), fun _ => ⟨?_, hnone⟩⟩
    have hempty := hsearch.none hnone
    rwa [show ({ f.2 with bmtBlockIndex := f.1 } : St) = f.2 by rw [hnone, ← hindex]]
  · rw [if_neg hnone]
    simp only [if_true]
    have hgood := hsearch.found hnone
    have hpool := (mem_goodBlocks.mp hgood).1
    have hwrite : OnlyBlock c f.1 { f.2 with bmtBlockIndex := f.1 }
        (nandWritePageBmt c host (c.pageAddr f.1) none { f.2 with bmtBlockIndex := f.1 }).2 :=
      nandWritePageBmt_only none _ (by rw [pageAddr_eq, page_block])
    split
    · refine ⟨fun done hdone => ?_, fun hn => (by cases hn)⟩
      obtain rfl := Option.some.inj hdone
      exact ⟨hsearch.tried hwrite.calls,
        fun hempty => absurd hempty (Finset.ne_empty_of_mem (hsearch.subset hgood)),
        fun hfalse => (by cases hfalse)⟩
    · refine ⟨fun n hn => (by cases hn), fun _ => ⟨?_, rfl⟩⟩
      have hmark := hwrite.trans (@markBlockBadBmt_offset_only c host f.1 _)
      exact hsearch.lost_call hnone { hmark with index := hindex.symm } (hmarks f.1 hpool _)

theorem writeAttempt_table (hmarks : MarksHold c host) {s : St} (hidx : s.bmtBlockIndex ≠ 0) :
    let r := writeAttempt c host s
    (∀ done, r.1 = some done → WriteEnd c s done r.2) ∧ (r.1 = none → LostTable c s r.2) := by
  have herase : OnlyBlock c s.bmtBlockIndex s
      (nandEraseBmt c host (c.offset s.bmtBlockIndex) s).2 := nandEraseBmt_only _ s
  have hwrite : OnlyBlock c s.bmtBlockIndex s (nandWritePageBmt c host
      (c.pageAddr s.bmtBlockIndex) none
      (nandEraseBmt c host (c.offset s.bmtBlockIndex) s).2).2 :=
    herase.trans (nandWritePageBmt_only none _ (by rw [pageAddr_eq, page_block]))
  -- the block of the table is marked bad, so it does not become a good block
  have hlost : ∀ t, OnlyBlock c s.bmtBlockIndex s t → LostTable c s
      { markBlockBadBmt c host (c.offset s.bmtBlockIndex) t with bmtBlockIndex := 0 } := by
    intro t honly
    have hmark := honly.trans (@markBlockBadBmt_offset_only c host _ t)
    refine ⟨hidx, rfl, hmark.calls, fun b hb => ?_⟩
    obtain ⟨hpool, _, hgood, hfree⟩ := mem_goodBlocks.mp hb
    have hne : b ≠ s.bmtBlockIndex := by
      rintro rfl
      exact absurd ((hmarks _ hpool t).symm.trans hgood) (by decide)
    have hgood' := (hmark.bad b hne).symm.trans hgood
    exact mem_goodBlocks.mpr ⟨hpool, hne, hgood', hmark.bmt ▸ hfree⟩
  unfold writeAttempt
  simp only [if_pos hidx, if_neg hidx]
  split
  · split
    · refine ⟨fun done hdone => ?_, fun hn => (by cases hn)⟩
      obtain rfl := Option.some.inj hdone
      exact ⟨Tried.of_calls_eq hwrite.calls, fun _ _ => ⟨hidx, hwrite.index⟩,
        fun hfalse => (by cases hfalse)⟩
    · exact ⟨fun n hn => (by cases hn), fun _ => hlost _ hwrite⟩
  · exact ⟨fun n hn => (by cases hn), fun _ => hlost _ herase⟩

/-- The good blocks, and the block that holds the table for one more attempt. -/
def writesLeft (c : Conf) (s : St) : ℕ :=
  (goodBlocks c s).card + if s.bmtBlockIndex = 0 then 0 else 1

theorem writeAttempt_again (hmarks : MarksHold c host) (hc : Counts c) {s : St}
    (hnone : (writeAttempt c host s).1 = none) :
    writesLeft c (writeAttempt c host s).2 < writesLeft c s ∧
      ∀ done t, WriteEnd c (writeAttempt c host s).2 done t → WriteEnd c s done t := by
  unfold writesLeft
  by_cases hidx : s.bmtBlockIndex = 0
  · obtain ⟨hlost, hidx'⟩ := (writeAttempt_search hmarks hc hidx).2 hnone
    refine ⟨?_, fun done t hend => ⟨hlost.tried hend.tried, ?_, hend.failed⟩⟩
    · rw [if_pos hidx, if_pos hidx']
      exact hlost.card_lt
    · exact fun hempty => absurd hempty hlost.ne_empty
  · obtain ⟨_, hidx', hcalls, hless⟩ := (writeAttempt_table hmarks hidx).2 hnone
    refine ⟨?_, fun done t hend => ⟨hend.tried.of_eq hcalls hless, ?_, hend.failed⟩⟩
    · rw [if_neg hidx, if_pos hidx']
      exact Nat.lt_succ_of_le (Finset.card_le_card hless)
    · intro hempty hdone
      have hempty' := Finset.subset_empty.mp (hempty ▸ hless)
      exact absurd hidx' (hend.empty hempty' hdone).1

/-- A write of the table ends. -/
theorem writeBmtToFlash_ends (hmarks : MarksHold c host) (hc : Counts c) (s : St) :
    ∃ done t, WriteEnd c s done t ∧
      ∀ fuel, c.bmtBlockCount + 1 < fuel → writeBmtToFlash c host fuel s = (some done, t) := by
  have hdone : ∀ s done, True → (writeAttempt c host s).1 = some done →
      WriteEnd c s done (writeAttempt c host s).2 := by
    intro s done _ hdone
    by_cases hidx : s.bmtBlockIndex = 0
    · exact (writeAttempt_search hmarks hc hidx).1 done hdone
    · exact (writeAttempt_table hmarks hidx).1 done hdone
  obtain ⟨done, t, hend, hrun⟩ := attempts_ends (P := fun _ => True) (writesLeft c) hdone
    (fun s _ hnone => ⟨trivial, writeAttempt_again hmarks hc hnone⟩) (s := s) trivial
  refine ⟨done, t, hend, fun fuel hfuel => ?_⟩
  rw [writeBmtToFlash_eq_attempts]
  refine hrun fuel ?_
  have hcard := goodBlocks_card_le hc s
  unfold writesLeft
  split
  · omega
  · omega

/-- The retries of both functions end, each with a target of its own among the good blocks
that do not hold the table; without a good block a migration fails, and a write of the table
fails unless the block that holds it takes it; and they fail only without a good block. -/
theorem retries_end (h0 : 0 < c.bmtBlockCount) (hsize : c.bmtBlockCount < maxBmtSize)
    (hmarks : MarksHold c host) (s : St) :
    (∀ offset dat, ∃ n t,
      (∀ fuel, c.bmtBlockCount < fuel → migrateFromBad c host fuel offset dat s = (some n, t)) ∧
      (targets s t).Nodup ∧ (∀ b ∈ targets s t, b ∈ goodBlocks c s) ∧
      (goodBlocks c s = ∅ → n = 0) ∧ (n = 0 → goodBlocks c t = ∅)) ∧
    ∃ done t,
      (∀ fuel, c.bmtBlockCount + 1 < fuel → writeBmtToFlash c host fuel s = (some done, t)) ∧
      (s.bmtBlockIndex :: targets s t).Nodup ∧ (∀ b ∈ targets s t, b ∈ goodBlocks c s) ∧
      (goodBlocks c s = ∅ → done = true →
        s.bmtBlockIndex ≠ 0 ∧ t.bmtBlockIndex = s.bmtBlockIndex) ∧
      (done = false → goodBlocks c t = ∅ ∧ t.bmtBlockIndex = 0) := by
  have hc := counts_of_size h0 hsize
  refine ⟨fun offset dat => ?_, ?_⟩
  · obtain ⟨n, t, hend, hrun⟩ := migrateFromBad_ends hmarks hc offset dat s
    exact ⟨n, t, hrun, hend.tried.nodup, hend.tried.good, hend.empty, hend.failed⟩
  · obtain ⟨done, t, hend, hrun⟩ := writeBmtToFlash_ends hmarks hc s
    refine ⟨done, t, hrun, List.nodup_cons.mpr ⟨fun hmem => ?_, hend.tried.nodup⟩,
      hend.tried.good, hend.empty, hend.failed⟩
    exact (mem_goodBlocks.mp (hend.tried.good _ hmem)).2.1 rfl

/-- A controller on which no page can be written. -/
def refusingHost : Host := { quietHost with write := fun _ _ => .fail }

/-- A blank chip, before the table has a block. -/
def blankPool : St := powerOn ⟨fun _ _ => 0xff, fun _ => true⟩

theorem retries_end_refused : ∃ done t,
    (∀ fuel, 4 < fuel → writeBmtToFlash ⟨0, 3⟩ refusingHost fuel blankPool = (some done, t)) ∧
      (0 :: targets blankPool t).Nodup := by
  have hmarks : MarksWork ⟨0, 3⟩ refusingHost := fun _ _ _ => rfl
  obtain ⟨done, t, hrun, hnodup, _⟩ :=
    (retries_end (by decide) (by decide) hmarks.hold blankPool).2
  exact ⟨done, t, hrun, hnodup⟩

/-- All three blocks of the pool are tried, from the end, and then the write fails. -/
example : (writeBmtToFlash ⟨0, 3⟩ refusingHost 5 blankPool).1 = some false ∧
    targets blankPool (writeBmtToFlash ⟨0, 3⟩ refusingHost 5 blankPool).2 = [2047, 2046, 2045] := by
  decide +kernel

end Iot7688.Bmt
