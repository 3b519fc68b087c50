import Iot7688.BmtRestart
import Iot7688.BmtRetry

/-!
update_bmt on a table that satisfies its invariant, and the copy of the table in the pool.
The table is changed before it is stored and the change stays when it cannot be stored.
reconstruct_bmt collects the spare bytes of the replacements when the page of the table is
lost; it gets the table when every mapping has its copy and nothing else passes for one.
-/
namespace Iot7688.Bmt

section

variable (c : Conf)

/-- The entry of a block of the system part; the first one decides. -/
def entryOf (bmt : BmtStruct) (index : ℕ) : Option ℕ :=
  (List.range bmt.mappedCount).find? fun i => (bmt.table i).badIndex == index

/-- The invariant of the table. -/
structure TableInv (bmt : BmtStruct) : Prop extends MapInv c bmt where
  count : bmt.mappedCount ≤ c.bmtBlockCount
  system : ∀ i, i < bmt.mappedCount → (bmt.table i).badIndex < c.systemBlockCount
  badInj : ∀ i j, i < bmt.mappedCount → j < bmt.mappedCount →
    (bmt.table i).badIndex = (bmt.table j).badIndex → i = j

/-- Block b stands for block l of the system part. -/
def Serves (bmt : BmtStruct) (b l : ℕ) : Prop :=
  l < c.systemBlockCount ∧ getMappingBlockIndex c bmt l = b

instance (bmt : BmtStruct) (b l : ℕ) : Decidable (Serves c bmt b l) :=
  inferInstanceAs (Decidable (_ ∧ _))

/-- The entry that updateTable writes. -/
def updatedEntry (bmt : BmtStruct) (b : ℕ) : ℕ :=
  if b ≥ c.systemBlockCount then
    ((List.range c.bmtBlockCount).find? fun i =>
      (bmt.table i).mappedIndex == b).getD c.bmtBlockCount
  else bmt.mappedCount

/-- The failing block b has been replaced. -/
structure Moved (b : ℕ) (bmt bmt' : BmtStruct) : Prop where
  served : ∀ l, Serves c bmt b l →
    InPool c (getMappingBlockIndex c bmt' l) ∧ getMappingBlockIndex c bmt' l ≠ b
  others : ∀ l, l < c.systemBlockCount → ¬Serves c bmt b l →
    getMappingBlockIndex c bmt' l = getMappingBlockIndex c bmt l
  inv : TableInv c bmt'
  inside : updatedEntry c bmt b < c.bmtBlockCount

/-- No mapping has changed. -/
def Unmoved (bmt bmt' : BmtStruct) : Prop :=
  ∀ l, l < c.systemBlockCount → getMappingBlockIndex c bmt' l = getMappingBlockIndex c bmt l

/-- What the result of an update of block b promises. -/
def UpdateKeeps (b : ℕ) (bmt : BmtStruct) (r : Option Bool × St) : Prop :=
  (r.1 = some true → Moved c b bmt r.2.bmt) ∧ (r.1 = some false → Unmoved c bmt r.2.bmt)

/-- The table has a place for the change: block b of the system part has no entry, block b
of the pool has one. -/
def HasPlace (bmt : BmtStruct) (b : ℕ) : Prop :=
  if b < c.systemBlockCount then ∀ i, i < bmt.mappedCount → (bmt.table i).badIndex ≠ b
  else ∃ i, i < c.bmtBlockCount ∧ (bmt.table i).mappedIndex = b

/-- The state in which update_bmt stores the table, with n for block b. -/
def changed (b n : ℕ) (t : St) : St :=
  { t with
    bmt := updateTable c t.bmt b n
    pageBuf := fillNandBmtBuffer c (updateTable c t.bmt b n) (clearOob c t.pageBuf) }

end

variable {c : Conf} {host : Host}

theorem getMappingBlockIndex_eq {bmt : BmtStruct} {l : ℕ} (hl : l < c.systemBlockCount) :
    getMappingBlockIndex c bmt l =
      match entryOf bmt l with
      | some i => (bmt.table i).mappedIndex
      | none => l % 2 ^ 16 := by
  unfold getMappingBlockIndex
  rw [if_neg (by omega)]
  rfl

theorem entryOf_some {bmt : BmtStruct} {l i : ℕ} (h : entryOf bmt l = some i) :
    i < bmt.mappedCount ∧ (bmt.table i).badIndex = l :=
  ⟨List.mem_range.mp (List.mem_of_find?_eq_some h), by simpa using List.find?_some h⟩

theorem setMapped_badIndex (bmt : BmtStruct) (i n j : ℕ) :
    ((bmt.setMapped i n).table j).badIndex = (bmt.table j).badIndex := by
  unfold BmtStruct.setMapped
  dsimp only
  by_cases hj : j = i
  · rw [hj, Function.update_self]
  · rw [Function.update_of_ne hj]

theorem append_badIndex (bmt : BmtStruct) {b : ℕ} (hb : b < 2 ^ 16) (n j : ℕ) :
    ((bmt.append b n).table j).badIndex =
      if j = bmt.mappedCount then b else (bmt.table j).badIndex := by
  unfold BmtStruct.append
  dsimp only
  by_cases hj : j = bmt.mappedCount
  · rw [hj, Function.update_self, if_pos rfl]
    exact Nat.mod_eq_of_lt hb
  · rw [Function.update_of_ne hj, if_neg hj]

theorem entryOf_setMapped (bmt : BmtStruct) (i n l : ℕ) :
    entryOf (bmt.setMapped i n) l = entryOf bmt l := by
  unfold entryOf
  simp only [setMapped_badIndex]
  rfl

/-- The new entry is the last to be looked at. -/
theorem entryOf_append {bmt : BmtStruct} (hcount : bmt.mappedCount < 255) {b : ℕ}
    (hb : b < 2 ^ 16) (n l : ℕ) :
    entryOf (bmt.append b n) l =
      (entryOf bmt l).or (if b = l then some bmt.mappedCount else none) := by
  have hcount' : (bmt.append b n).mappedCount = bmt.mappedCount + 1 :=
    Nat.mod_eq_of_lt (by omega)
  unfold entryOf
  rw [hcount', List.range_succ, List.find?_append]
  congr 1
  · refine List.find?_congr fun i hi => ?_
    have hi' := List.mem_range.mp hi
    rw [append_badIndex bmt hb, if_neg (by omega)]
  · rw [List.find?_singleton, append_badIndex bmt hb, if_pos rfl]
    by_cases hbl : b = l
    · rw [if_pos hbl, if_pos (beq_iff_eq.mpr hbl)]
    · rw [if_neg hbl, if_neg (by simpa using hbl)]

theorem updateTable_eq (bmt : BmtStruct) (b n : ℕ) : updateTable c bmt b n =
    if c.systemBlockCount ≤ b then bmt.setMapped (updatedEntry c bmt b) n
    else bmt.append b n := by
  unfold updateTable updatedEntry
  split
  · rfl
  · rfl

/-- A block that has an entry is no longer served by itself. -/
theorem TableInv.serves_system {bmt : BmtStruct} (hc : Counts c) (h : TableInv c bmt) {b l : ℕ}
    (hb : b < c.systemBlockCount) (hl : l < c.systemBlockCount) :
    Serves c bmt b l ↔ l = b ∧ entryOf bmt l = none := by
  have hsmall := hc.index
  have htotal := hc.total
  rw [Serves, and_iff_right hl, getMappingBlockIndex_eq hl]
  cases hentry : entryOf bmt l with
  | none => simp only [Nat.mod_eq_of_lt (show l < 2 ^ 16 by omega), and_true]
  | some i =>
    have hpool := (h.pool i (entryOf_some hentry).1).1
    simp only [reduceCtorEq, and_false, iff_false]
    omega

/-- A block of the pool serves the block whose entry holds it. -/
theorem TableInv.serves_pool {bmt : BmtStruct} (hc : Counts c) {b l : ℕ}
    (hb : c.systemBlockCount ≤ b) (hl : l < c.systemBlockCount) :
    Serves c bmt b l ↔ ∃ i, entryOf bmt l = some i ∧ (bmt.table i).mappedIndex = b := by
  have hsmall := hc.index
  have htotal := hc.total
  rw [Serves, and_iff_right hl, getMappingBlockIndex_eq hl]
  cases hentry : entryOf bmt l with
  | none =>
    simp only [Nat.mod_eq_of_lt (show l < 2 ^ 16 by omega), reduceCtorEq, false_and, exists_false,
      iff_false]
    omega
  | some i => simp only [Option.some.injEq, exists_eq_left']

/-- The mapping after the change of an entry, or of none that is in use. -/
theorem setMapped_mapping (hc : Counts c) {bmt : BmtStruct} (h : TableInv c bmt) {b n : ℕ}
    (hn : n < 2 ^ 16) (hpool : c.systemBlockCount ≤ b) {l : ℕ} (hl : l < c.systemBlockCount) :
    getMappingBlockIndex c (bmt.setMapped (updatedEntry c bmt b) n) l =
      if Serves c bmt b l then n else getMappingBlockIndex c bmt l := by
  rw [getMappingBlockIndex_eq hl, getMappingBlockIndex_eq hl, entryOf_setMapped]
  cases hentry : entryOf bmt l with
  | none =>
    have hnot : ¬Serves c bmt b l := by simp [TableInv.serves_pool hc hpool hl, hentry]
    rw [if_neg hnot]
  | some j =>
    have hj := (entryOf_some hentry).1
    dsimp only
    rw [setMapped_table bmt _ hn, updatedEntry, if_pos hpool]
    by_cases hjb : (bmt.table j).mappedIndex = b
    · have hserves : Serves c bmt b l := (TableInv.serves_pool hc hpool hl).mpr ⟨j, hentry, hjb⟩
      have hmapped : isBlockMapped bmt b ≠ none := fun hnone =>
        isBlockMapped_none.mp hnone j hj hjb
      obtain ⟨i, hfind, hi, hib⟩ := find_mapped hc h.toMapInv hmapped
      rw [if_pos hserves, hfind, Option.getD_some, if_pos (h.inj j i hj hi (hjb.trans hib.symm))]
    · have hnot : ¬Serves c bmt b l := by simp [TableInv.serves_pool hc hpool hl, hentry, hjb]
      rw [if_neg hnot, if_neg]
      intro hji
      cases hfind : (List.range c.bmtBlockCount).find? fun i => (bmt.table i).mappedIndex == b with
      | none =>
        rw [hfind, Option.getD_none] at hji
        have hcount := h.count
        omega
      | some i =>
        rw [hfind, Option.getD_some] at hji
        rw [hji] at hjb
        exact hjb (by simpa using List.find?_some hfind)

/-- The mapping after an entry was appended. -/
theorem append_mapping (hc : Counts c) {bmt : BmtStruct} (h : TableInv c bmt) {b n : ℕ}
    (hn : n < 2 ^ 16) (hb : b < c.systemBlockCount) {l : ℕ} (hl : l < c.systemBlockCount) :
    getMappingBlockIndex c (bmt.append b n) l =
      if Serves c bmt b l then n else getMappingBlockIndex c bmt l := by
  have hcount := h.count
  have hsize := hc.size
  have htotal := hc.total
  have hindex := hc.index
  unfold maxBmtSize at hsize
  rw [getMappingBlockIndex_eq hl, getMappingBlockIndex_eq hl, entryOf_append (by omega) (by omega)]
  cases hentry : entryOf bmt l with
  | none =>
    by_cases hbl : b = l
    · have hserves : Serves c bmt b l := (h.serves_system hc hb hl).mpr ⟨hbl.symm, hentry⟩
      rw [if_pos hserves, if_pos hbl, Option.none_or]
      dsimp only
      rw [append_table bmt b hn, if_pos rfl]
    · have hnot : ¬Serves c bmt b l := fun hs => hbl ((h.serves_system hc hb hl).mp hs).1.symm
      rw [if_neg hnot, if_neg hbl, Option.none_or]
  | some j =>
    have hj := (entryOf_some hentry).1
    have hnot : ¬Serves c bmt b l := by simp [h.serves_system hc hb hl, hentry]
    rw [if_neg hnot, Option.some_or]
    dsimp only
    rw [append_table bmt b hn, if_neg (by omega)]

/-- The mapping after the change, whether or not there was a place for it. -/
theorem updateTable_mapping (hc : Counts c) {bmt : BmtStruct} (h : TableInv c bmt) {n : ℕ}
    (hn : InPool c n) (b : ℕ) {l : ℕ} (hl : l < c.systemBlockCount) :
    getMappingBlockIndex c (updateTable c bmt b n) l =
      if Serves c bmt b l then n else getMappingBlockIndex c bmt l := by
  have hn16 : n < 2 ^ 16 := lt_of_lt_of_le hn.2 hc.index
  rw [updateTable_eq]
  split
  · exact setMapped_mapping hc h hn16 ‹_› hl
  · exact append_mapping hc h hn16 (not_le.mp ‹_›) hl

/-- A replacement is never the block that it replaces. -/
theorem Serves.ne_free {bmt : BmtStruct} (hc : Counts c) {b l n : ℕ} (h : Serves c bmt b l)
    (hn : InPool c n) (hfree : isBlockMapped bmt n = none) : n ≠ b := by
  intro hnb
  obtain ⟨i, hentry, hi⟩ := (TableInv.serves_pool hc (hnb ▸ hn.1) h.1).mp h
  exact isBlockMapped_none.mp hfree i (entryOf_some hentry).1 (hi.trans hnb.symm)

/-- Without a change there was nobody to serve. -/
theorem unmoved_iff (hc : Counts c) {bmt : BmtStruct} (h : TableInv c bmt) {n : ℕ}
    (hn : InPool c n) (hfree : isBlockMapped bmt n = none) (b : ℕ) :
    Unmoved c bmt (updateTable c bmt b n) ↔ ∀ l, ¬Serves c bmt b l := by
  constructor
  · intro hsame l hserves
    have hl := hsame l hserves.1
    rw [updateTable_mapping hc h hn b hserves.1, if_pos hserves, hserves.2] at hl
    exact hserves.ne_free hc hn hfree hl
  · intro hnone l hl
    rw [updateTable_mapping hc h hn b hl, if_neg (hnone l)]

/-- There is room for one more entry as long as a block of the pool is free. -/
theorem count_lt (hc : Counts c) {bmt : BmtStruct} (h : MapInv c bmt) {n : ℕ}
    (hn : InPool c n) (hfree : isBlockMapped bmt n = none) : bmt.mappedCount < c.bmtBlockCount := by
  have hle := (append_remapped hc h hn hfree 0 0).inv.count_le hc.total
  have hold := h.count_le hc.total
  have hsize := hc.size
  unfold maxBmtSize at hsize
  have hcount : (bmt.append 0 n).mappedCount = bmt.mappedCount + 1 := Nat.mod_eq_of_lt (by omega)
  omega

theorem updatedEntry_lt_iff (hc : Counts c) {bmt : BmtStruct} (h : MapInv c bmt) {n : ℕ}
    (hn : InPool c n) (hfree : isBlockMapped bmt n = none) (b : ℕ) :
    updatedEntry c bmt b < c.bmtBlockCount ↔
      (c.systemBlockCount ≤ b → ∃ i, i < c.bmtBlockCount ∧ (bmt.table i).mappedIndex = b) := by
  unfold updatedEntry
  split
  · rename_i hb
    cases hfind : (List.range c.bmtBlockCount).find? fun i => (bmt.table i).mappedIndex == b with
    | none =>
      rw [Option.getD_none]
      refine ⟨fun hlt => absurd hlt (lt_irrefl _), fun hex => ?_⟩
      obtain ⟨i, hi, hib⟩ := hex hb
      have hno := List.find?_eq_none.mp hfind i (List.mem_range.mpr hi)
      exact absurd (beq_iff_eq.mpr hib) hno
    | some i =>
      have hi := List.mem_range.mp (List.mem_of_find?_eq_some hfind)
      exact ⟨fun _ _ => ⟨i, hi, by simpa using List.find?_some hfind⟩, fun _ => hi⟩
  · exact ⟨fun _ hb => absurd hb ‹_›, fun _ => count_lt hc h hn hfree⟩

/-- The change keeps the invariant unless the block has an entry already. -/
theorem updateTable_tableInv_iff (hc : Counts c) {bmt : BmtStruct} (h : TableInv c bmt) {n : ℕ}
    (hn : InPool c n) (hfree : isBlockMapped bmt n = none) (b : ℕ) :
    TableInv c (updateTable c bmt b n) ↔
      (b < c.systemBlockCount → ∀ i, i < bmt.mappedCount → (bmt.table i).badIndex ≠ b) := by
  have hmap := updateTable_inv hc h.toMapInv hn hfree b
  have hsmall := hc.index
  have htotal := hc.total
  have hlt := count_lt hc h.toMapInv hn hfree
  have hsize := hc.size
  unfold maxBmtSize at hsize
  rw [updateTable_eq] at hmap ⊢
  split
  · rename_i hb
    rw [if_pos hb] at hmap
    refine ⟨fun _ hlt => absurd hlt (not_lt.mpr hb), fun _ => ⟨hmap, h.count, ?_, ?_⟩⟩
    · intro i hi
      rw [setMapped_badIndex]
      exact h.system i hi
    · intro i j hi hj heq
      rw [setMapped_badIndex, setMapped_badIndex] at heq
      exact h.badInj i j hi hj heq
  · rename_i hb
    rw [if_neg hb] at hmap
    have hcount : (bmt.append b n).mappedCount = bmt.mappedCount + 1 := Nat.mod_eq_of_lt (by omega)
    have hbad := append_badIndex bmt (show b < 2 ^ 16 by omega) n
    constructor
    · intro hinv _ i hi heq
      have hlast := hinv.badInj i bmt.mappedCount (by omega) (by omega) (by
        rw [hbad, hbad, if_pos rfl, if_neg (by omega), heq])
      omega
    · intro hnew
      refine ⟨hmap, by omega, ?_, ?_⟩
      · intro i hi
        rw [hbad]
        split
        · omega
        · exact h.system i (by omega)
      · intro i j hi hj heq
        rw [hbad, hbad] at heq
        by_cases hin : i = bmt.mappedCount
        · by_cases hjn : j = bmt.mappedCount
          · omega
          · rw [if_pos hin, if_neg hjn] at heq
            exact absurd heq.symm (hnew (by omega) j (by omega))
        · by_cases hjn : j = bmt.mappedCount
          · rw [if_neg hin, if_pos hjn] at heq
            exact absurd heq (hnew (by omega) i (by omega))
          · rw [if_neg hin, if_neg hjn] at heq
            exact h.badInj i j (by omega) (by omega) heq

/-- The change is right when there was a place for it. -/
theorem moved_iff (hc : Counts c) {bmt : BmtStruct} (h : TableInv c bmt) {n : ℕ}
    (hn : InPool c n) (hfree : isBlockMapped bmt n = none) (b : ℕ) :
    Moved c b bmt (updateTable c bmt b n) ↔ HasPlace c bmt b := by
  have hinv := updateTable_tableInv_iff hc h hn hfree b
  have hinside := updatedEntry_lt_iff hc h.toMapInv hn hfree b
  constructor
  · intro hmoved
    unfold HasPlace
    split
    · exact hinv.mp hmoved.inv ‹_›
    · exact hinside.mp hmoved.inside (not_lt.mp ‹_›)
  · intro hplace
    unfold HasPlace at hplace
    refine ⟨fun l hl => ?_, fun l hl hnot => ?_, hinv.mpr fun hb => ?_, hinside.mpr fun hb => ?_⟩
    · rw [updateTable_mapping hc h hn b hl.1, if_pos hl]
      exact ⟨hn, hl.ne_free hc hn hfree⟩
    · rw [updateTable_mapping hc h hn b hl, if_neg hnot]
    · rwa [if_pos hb] at hplace
    · rwa [if_neg (not_lt.mpr hb)] at hplace

/-- What a search for a replacement promises when nothing is known of the marks. -/
structure FreeSpec (c : Conf) (s : St) (r : Option ℕ × St) : Prop where
  bmt : r.2.bmt = s.bmt
  found : ∀ n, n ≠ 0 → r.1 = some n → InPool c n ∧ isBlockMapped s.bmt n = none

theorem findAvailableBlock_free (hc : Counts c) (host : Host) (startFromEnd : Bool) (s : St) :
    FreeSpec c s (some (findAvailableBlock c host startFromEnd s).1,
      (findAvailableBlock c host startFromEnd s).2) := by
  have hsearch := findAvailableBlock_searched hc host startFromEnd s
  refine ⟨hsearch.bmt, fun n hn hfound => ?_⟩
  obtain rfl := Option.some.inj hfound
  obtain ⟨hpool, _, _, hfree⟩ := mem_goodBlocks.mp (hsearch.subset (hsearch.found hn))
  exact ⟨hpool, hfree⟩

theorem nandWritePageBmt_bmt (page : ℕ) (dat : Option Buf) (s : St) :
    (nandWritePageBmt c host page dat s).2.bmt = s.bmt :=
  (nandWritePageBmt_only dat s rfl).bmt

theorem migratePages_bmt (errorBlock errorPage toIndex : ℕ) (pages : List ℕ) (s : St) :
    (migratePages c host errorBlock errorPage toIndex pages s).2.bmt = s.bmt := by
  induction pages generalizing s with
  | nil => rfl
  | cons page pages ih =>
    rw [migratePages]
    dsimp only
    split
    · exact ih s
    · split
      · split
        · rw [ih, nandWritePageBmt_bmt]
          rfl
        · exact nandWritePageBmt_bmt _ none _
      · exact ih _

theorem migrateFromBad_free (hc : Counts c) (host : Host) (fuel offset : ℕ) (dat : Option Buf)
    (s : St) : FreeSpec c s (migrateFromBad c host fuel offset dat s) := by
  induction fuel generalizing s with
  | zero => exact ⟨rfl, fun n _ hnone => by cases hnone⟩
  | succ fuel ih =>
    rw [migrateFromBad]
    dsimp only
    set s0 : St := { s with pageBuf := _ } with hs0
    have hfree := findAvailableBlock_free hc host false s0
    set f := findAvailableBlock c host false s0 with hf
    have hbmt : f.2.bmt = s.bmt := hfree.bmt
    -- a block that was given up counts for nothing
    have hretry : ∀ t : St, t.bmt = s.bmt →
        FreeSpec c s (migrateFromBad c host fuel offset dat t) := fun t ht =>
      ⟨(ih t).bmt.trans ht, fun n hn hsome => ht ▸ (ih t).found n hn hsome⟩
    split
    · exact ⟨hbmt, fun n hn hzero => absurd (Option.some.inj hzero).symm hn⟩
    · split
      · split
        · refine ⟨?_, fun n hn hsome => hfree.found n hn hsome⟩
          rw [migratePages_bmt, nandWritePageBmt_bmt]
          exact hbmt
        · refine hretry _ ?_
          rw [migratePages_bmt, nandWritePageBmt_bmt]
          exact hbmt
      · refine hretry _ (Eq.trans ?_ hbmt)
        exact nandWritePageBmt_bmt _ dat _

theorem replace_free (hc : Counts c) (host : Host) (fuel offset : ℕ) (reason : UpdateReason)
    (dat : Option Buf) (s : St) : FreeSpec c s (replace c host fuel offset reason dat s) := by
  unfold replace
  split
  · exact migrateFromBad_free hc host fuel offset dat s
  · exact findAvailableBlock_free hc host false s

theorem store_bmt (fuel offset : ℕ) (s : St) : (store c host fuel offset s).2.bmt = s.bmt := by
  unfold store
  dsimp only
  split
  · exact writeBmtToFlash_bmt fuel s
  · exact writeBmtToFlash_bmt fuel s

theorem store_fst (fuel offset : ℕ) (s : St) :
    (store c host fuel offset s).1 = (writeBmtToFlash c host fuel s).1 := by
  unfold store
  dsimp only
  split
  · exact Eq.symm ‹_›
  · rfl

/-- update_bmt does what its result promises exactly when, for a replacement n that it
finds, a table that can be stored had a place for the change, and a table that cannot be
stored was changed for a block that serves no other. -/
theorem update_bmt_keeps_iff (h0 : 0 < c.bmtBlockCount) (hsize : c.bmtBlockCount < maxBmtSize)
    (host : Host) (fuel offset : ℕ) (reason : UpdateReason) (dat : Option Buf) {s : St}
    (h : TableInv c s.bmt) :
    UpdateKeeps c (offset / c.blockSize) s.bmt (updateBmt c host fuel offset reason dat s) ↔
      ∀ n t, replace c host fuel offset reason dat s = (some n, t) → n ≠ 0 →
        let w := writeBmtToFlash c host fuel (changed c (offset / c.blockSize) n t)
        (w.1 = some true → HasPlace c s.bmt (offset / c.blockSize)) ∧
          (w.1 = some false → ∀ l, ¬Serves c s.bmt (offset / c.blockSize) l) := by
  have hc := counts_of_size h0 hsize
  have hfree := replace_free hc host fuel offset reason dat s
  rw [updateBmt_eq]
  generalize replace c host fuel offset reason dat s = r at hfree ⊢
  obtain ⟨m, t⟩ := r
  have hbmt : t.bmt = s.bmt := hfree.bmt
  cases m with
  | none =>
    refine ⟨fun _ n t' heq => ?_, fun _ => ⟨fun hret => ?_, fun hret => ?_⟩⟩
    · cases heq
    · cases hret
    · cases hret
  | some n =>
    dsimp only
    by_cases hn : n = 0
    · rw [if_pos hn]
      refine ⟨fun _ n' t' heq hne => ?_, fun _ => ⟨fun hret => ?_, fun _ l _ => ?_⟩⟩
      · cases heq
        exact absurd hn hne
      · cases hret
      · rw [hbmt]
    · rw [if_neg hn]
      obtain ⟨hpool, hunmapped⟩ := hfree.found n hn rfl
      have hmoved := moved_iff hc h hpool hunmapped (offset / c.blockSize)
      have hunmoved := unmoved_iff hc h hpool hunmapped (offset / c.blockSize)
      show UpdateKeeps c _ s.bmt (store c host fuel offset (changed c _ n t)) ↔ _
      unfold UpdateKeeps
      rw [store_bmt, store_fst]
      have hchanged : (changed c (offset / c.blockSize) n t).bmt =
          updateTable c s.bmt (offset / c.blockSize) n := by rw [← hbmt]; rfl
      rw [hchanged, hmoved, hunmoved]
      constructor
      · intro hkeeps n' t' heq _
        cases heq
        exact hkeeps
      · intro hall
        exact hall n t rfl hn

/-- A blank chip with a pool of 80 blocks, 1968 to 2047, after init_bmt. -/
def freshBoot : St := (initBmt ⟨0, 80⟩ quietHost 1 (powerOn ⟨fun _ _ => 0xff, fun _ => true⟩)).2

theorem freshBoot_inv : TableInv ⟨0, 80⟩ freshBoot.bmt := by
  have hempty : ¬0 < freshBoot.bmt.mappedCount := by decide +kernel
  have hnone : ∀ i, i < freshBoot.bmt.mappedCount → False :=
    fun i hi => hempty (Nat.zero_lt_of_lt hi)
  exact ⟨⟨fun i hi => (hnone i hi).elim, fun i _ hi => (hnone i hi).elim⟩, by omega,
    fun i hi => (hnone i hi).elim, fun i _ hi => (hnone i hi).elim⟩

theorem update_bmt_keeps_first : UpdateKeeps ⟨0, 80⟩ 0 freshBoot.bmt
    (updateBmt ⟨0, 80⟩ quietHost 1 0 .eraseFail none freshBoot) := by
  refine (update_bmt_keeps_iff (by decide) (by decide) quietHost 1 0 .eraseFail none
    freshBoot_inv).mpr fun n t hreplace _ => ⟨fun _ => ?_, fun hfailed => ?_⟩
  · have hempty : ¬0 < freshBoot.bmt.mappedCount := by decide +kernel
    exact fun i hi => absurd (Nat.zero_lt_of_lt hi) hempty
  · have hstored : (writeBmtToFlash ⟨0, 80⟩ quietHost 1 (changed ⟨0, 80⟩ 0 1968
        (replace ⟨0, 80⟩ quietHost 1 0 .eraseFail none freshBoot).2)).1 = some true := by
      decide +kernel
    have hfound : (replace ⟨0, 80⟩ quietHost 1 0 .eraseFail none freshBoot).1 = some 1968 := by
      decide +kernel
    rw [hreplace] at hstored hfound
    obtain rfl := Option.some.inj hfound
    exact absurd (hstored.symm.trans hfailed) (by decide)

/-- Block 2000 of the pool is free and fails: update_bmt reports success and has written the
entry behind the last one. -/
theorem free_block_written_behind :
    let offset := Conf.offset ⟨0, 80⟩ 2000
    let r := updateBmt ⟨0, 80⟩ quietHost 1 offset .eraseFail none freshBoot
    TableInv ⟨0, 80⟩ freshBoot.bmt ∧ r.1 = some true ∧
      ¬UpdateKeeps ⟨0, 80⟩ (offset / Conf.blockSize ⟨0, 80⟩) freshBoot.bmt r := by
  intro offset r
  have hdone : r.1 = some true := by decide +kernel
  refine ⟨freshBoot_inv, hdone, fun h => ?_⟩
  exact absurd (h.1 hdone).inside (by decide +kernel)

section

variable (c : Conf)

/-- The table maps block b of the system part to block n. -/
def Maps (bmt : BmtStruct) (b n : ℕ) : Prop :=
  ∃ i, i < bmt.mappedCount ∧ (bmt.table i).badIndex = b ∧ (bmt.table i).mappedIndex = n

/-- The index bytes name no block of the system part. -/
def NamesNone (page : Buf) : Prop := c.systemBlockCount ≤ getBadIndexFromOob c page

/-- The data of the page of the table is lost; its spare bytes are left or erased. -/
structure TableLost (s : St) (flash : Flash) : Prop where
  others : ∀ p, (s.bmtBlockIndex ≠ 0 → p ≠ s.bmtBlockIndex * c.pagePerBlock) →
    flash.page p = s.flash.page p
  spare : let page := s.bmtBlockIndex * c.pagePerBlock
    (∀ i, c.pageSize ≤ i → i < c.pageSize + c.oobSize → flash.page page i = s.flash.page page i) ∨
      ∀ i, c.pageSize ≤ i → i < c.pageSize + c.oobSize → flash.page page i = 0xff

/-- What reconstruct_bmt collects without the page of the table is the table in memory. -/
def Agrees (s : St) : Prop :=
  ∀ (host : Host) (fuel : ℕ) (t : St), (∀ tick page, (host.read tick page).2 = page) →
    TableLost c s t.flash →
    let bmt := (reconstructBmt c host fuel t).2.bmt
    (∀ b n, Maps bmt b n ↔ Maps s.bmt b n) ∧
      ∀ l, getMappingBlockIndex c bmt l = getMappingBlockIndex c s.bmt l

/-- Between calls every mapping has a copy in the pool. -/
structure Noted (s : St) : Prop extends TableInv c s.bmt where
  marked : ∀ b n, Maps s.bmt b n → bad c s.flash b = true
  named : ∀ b n, Maps s.bmt b n → getBadIndexFromOob c (firstPage c s n) = b
  apart : ∀ b n, Maps s.bmt b n → n ≠ s.bmtBlockIndex
  index : s.bmtBlockIndex ≠ 0 → InPool c s.bmtBlockIndex
  free : ReadyCalm c (NamesNone c) s

/-- After a call nothing else of the pool passes for a copy. -/
structure Settled (s : St) : Prop extends Noted c s where
  good : ∀ b n, Maps s.bmt b n → bad c s.flash n = false
  table : s.bmtBlockIndex ≠ 0 → Calm c (NamesNone c) s s.bmtBlockIndex
  calm : FreeCalm c (NamesNone c) s

end

theorem maps_iff_mem {bmt : BmtStruct} {b n : ℕ} : Maps bmt b n ↔ ⟨b, n⟩ ∈ bmt.entries := by
  rw [mem_entries]
  refine exists_congr fun i => and_congr_right fun _ => ?_
  rw [BmtEntry.mk.injEq]

theorem isBlockMapped_iff {bmt : BmtStruct} {n : ℕ} :
    isBlockMapped bmt n ≠ none ↔ ∃ b, Maps bmt b n := by
  rw [ne_eq, isBlockMapped_none]
  push Not
  constructor
  · rintro ⟨i, hi, rfl⟩
    exact ⟨_, i, hi, rfl, rfl⟩
  · rintro ⟨b, i, hi, _, hn⟩
    exact ⟨i, hi, hn⟩

namespace TableInv

variable {bmt : BmtStruct} {b b' n n' : ℕ}

theorem maps_pool (h : TableInv c bmt) (hm : Maps bmt b n) : InPool c n := by
  obtain ⟨i, hi, _, rfl⟩ := hm
  exact h.pool i hi

theorem maps_system (h : TableInv c bmt) (hm : Maps bmt b n) : b < c.systemBlockCount := by
  obtain ⟨i, hi, rfl, _⟩ := hm
  exact h.system i hi

theorem maps_unique (h : TableInv c bmt) (hm : Maps bmt b n) (hm' : Maps bmt b n') : n = n' := by
  obtain ⟨i, hi, hb, rfl⟩ := hm
  obtain ⟨j, hj, hb', rfl⟩ := hm'
  rw [h.badInj i j hi hj (hb.trans hb'.symm)]

end TableInv

/-- Tables that map the same blocks, each to one other, give the same mapping. -/
theorem getMappingBlockIndex_of_maps {bmt bmt' : BmtStruct} (hmaps : ∀ b n, Maps bmt b n ↔ Maps bmt' b n)
    (hunique : ∀ b n n', Maps bmt' b n → Maps bmt' b n' → n = n') (l : ℕ) :
    getMappingBlockIndex c bmt l = getMappingBlockIndex c bmt' l := by
  have hfirst {t : BmtStruct} {i : ℕ} (hi : entryOf t l = some i) :
      Maps t l (t.table i).mappedIndex :=
    ⟨i, (entryOf_some hi).1, (entryOf_some hi).2, rfl⟩
  have hnone {t : BmtStruct} (ht : entryOf t l = none) (n : ℕ) : ¬Maps t l n := by
    rintro ⟨i, hi, hb, _⟩
    have hno := List.find?_eq_none.mp ht i (List.mem_range.mpr hi)
    exact hno (beq_iff_eq.mpr hb)
  unfold getMappingBlockIndex
  split
  · rfl
  · rw [← entryOf, ← entryOf]
    cases hi : entryOf bmt l with
    | none =>
      cases hj : entryOf bmt' l with
      | none => rfl
      | some j => exact absurd ((hmaps l _).mpr (hfirst hj)) (hnone hi _)
    | some i =>
      have hm := (hmaps l _).mp (hfirst hi)
      cases hj : entryOf bmt' l with
      | none => exact absurd hm (hnone hj _)
      | some j => exact hunique l _ _ hm (hfirst hj)

theorem getBadIndexFromOob_congr {a b : Buf} (h : SamePage c a b) :
    getBadIndexFromOob c a = getBadIndexFromOob c b := by
  have hoob := (show 16 ≤ c.oobSize from oobSize_bounds.1)
  unfold getBadIndexFromOob oobIndexOffset
  rw [h _ (by omega), h _ (by omega)]

theorem namesNone_blank (h0 : 0 < c.bmtBlockCount) (hc : Counts c) :
    NamesNone c fun _ => 0xff := by
  have hindex := hc.index
  have htotal := hc.total
  show c.systemBlockCount ≤ (0xff#8).toNat + 256 * (0xff#8).toNat
  simp only [BitVec.toNat_ofNat]
  omega

theorem getBadIndexFromOob_indexed (hc : Counts c) (b : ℕ) (buf : Buf) :
    getBadIndexFromOob c (indexed c b buf) =
      if b < c.systemBlockCount then b else getBadIndexFromOob c buf := by
  have hindex := hc.index
  have htotal := hc.total
  unfold indexed
  split
  · unfold getBadIndexFromOob setBadIndexToOob
    rw [if_pos rfl, if_neg (by omega), if_pos rfl]
    exact ofNat_halves (by omega)
  · rfl

/-- The bad block mark lies in front of the index bytes. -/
theorem getBadIndexFromOob_update (buf : Buf) (x : Byte) :
    getBadIndexFromOob c (Function.update buf (badPos c) x) = getBadIndexFromOob c buf := by
  have hpos := (show c.pageSize ≤ badPos c ∧ badPos c < c.pageSize + 5 from badPos_bounds)
  unfold getBadIndexFromOob oobIndexOffset
  rw [Function.update_of_ne (by omega), Function.update_of_ne (by omega)]

theorem getBadIndexFromOob_copyPage (hc : Counts c) (b : ℕ) (page : Buf) :
    getBadIndexFromOob c (copyPage c b page) =
      if b < c.systemBlockCount then b else getBadIndexFromOob c page := by
  rw [copyPage, getBadIndexFromOob_update, getBadIndexFromOob_indexed hc]

theorem getBadIndexFromOob_image (hc : Counts c) {b : ℕ} (hb : b < c.systemBlockCount)
    (dat : Buf) : getBadIndexFromOob c (errorPageImage c b dat) = b := by
  have hindex := getBadIndexFromOob_indexed hc b fun _ => 0xff
  rw [if_pos hb] at hindex
  refine Eq.trans ?_ hindex
  unfold getBadIndexFromOob errorPageImage
  rw [if_neg (by omega), if_neg (by omega)]

theorem copyPage_mark (b : ℕ) (page : Buf) : copyPage c b page (badPos c) = 0xff :=
  Function.update_self _ _ _

theorem errorPageImage_mark (b : ℕ) (dat : Buf) : errorPageImage c b dat (badPos c) = 0xff := by
  have hpos := (show c.pageSize ≤ badPos c ∧ badPos c < c.pageSize + 5 from badPos_bounds)
  unfold errorPageImage indexed setBadIndexToOob oobIndexOffset
  rw [if_neg (by omega)]
  split
  · dsimp only
    rw [if_neg (by omega), if_neg (by omega)]
  · rfl

theorem badPos_lt : badPos c < c.pageSize + c.oobSize := by
  have hpos := (show c.pageSize ≤ badPos c ∧ badPos c < c.pageSize + 5 from badPos_bounds)
  have hoob := (show 16 ≤ c.oobSize from oobSize_bounds.1)
  omega

/-- A page that names a block is in use. -/
theorem isPageUsed_of_named (h0 : 0 < c.bmtBlockCount) (hc : Counts c) {page : Buf}
    (h : getBadIndexFromOob c page < c.systemBlockCount) : isPageUsed c page = true := by
  by_contra hno
  have hfree : page (c.pageSize + oobIndexOffset) = 0xff ∧
      page (c.pageSize + (oobIndexOffset + 1)) = 0xff := by
    simp only [isPageUsed, Bool.or_eq_true, bne_iff_ne, not_or, not_not] at hno
    exact ⟨hno.1.1.1.1, hno.1.1.1.2⟩
  have hblank : getBadIndexFromOob c page = getBadIndexFromOob c fun _ => 0xff := by
    unfold getBadIndexFromOob
    rw [hfree.1, Nat.add_assoc, hfree.2]
  have hnone : NamesNone c page := by
    rw [NamesNone, hblank]
    exact namesNone_blank h0 hc
  exact absurd h (not_lt.mpr hnone)

/-- The spare bytes that go to the page of the table. -/
theorem image_namesNone (h0 : 0 < c.bmtBlockCount) (hc : Counts c) (bmt : BmtStruct) {buf : Buf}
    (h : if c.isNandPage2048 then NamesNone c buf else c.bmtBlockCount < 127) :
    NamesNone c (fillNandBmtBuffer c bmt (clearOob c buf)) := by
  have hsize : c.pageSize = 2 ^ if c.isNandPage2048 then 11 else 9 := rfl
  cases hmode : c.isNandPage2048 with
  | true =>
    rw [hmode, if_pos rfl] at h hsize
    have hbyte (k : ℕ) (hk : k = 14 ∨ k = 15) :
        fillNandBmtBuffer c bmt (clearOob c buf) (c.pageSize + k) = buf (c.pageSize + k) := by
      unfold fillNandBmtBuffer clearOob oobSignatureOffset physSize physHeaderSize maxBmtSize
      rw [if_neg (by omega), if_neg (by omega), if_neg (by omega), if_neg (by omega),
        if_neg (by omega)]
    unfold NamesNone getBadIndexFromOob oobIndexOffset at h ⊢
    rwa [hbyte 14 (Or.inl rfl), Nat.add_assoc, hbyte 15 (Or.inr rfl)]
  | false =>
    rw [hmode, if_neg (by decide)] at h hsize
    have hbyte (k : ℕ) (hk : k = 14 ∨ k = 15) :
        fillNandBmtBuffer c bmt (clearOob c buf) (c.pageSize + k) = 0xff := by
      unfold fillNandBmtBuffer oobSignatureOffset physSize physHeaderSize maxBmtSize
      rw [if_neg (by omega), if_neg (by omega), if_neg (by omega), if_pos (by omega),
        Function.update_of_ne (by omega)]
      unfold physBytes physHeaderSize
      rw [if_neg (by omega), if_neg (by omega), if_neg (by omega), if_neg (by omega),
        if_neg (by omega), if_neg (by omega)]
    have hblank := namesNone_blank h0 hc
    unfold NamesNone getBadIndexFromOob oobIndexOffset at hblank ⊢
    rwa [hbyte 14 (Or.inl rfl), Nat.add_assoc, hbyte 15 (Or.inr rfl)]

namespace TableLost

variable {s t : St}

theorem first (h : TableLost c s t.flash) {n : ℕ}
    (hn : s.bmtBlockIndex ≠ 0 → n ≠ s.bmtBlockIndex) : firstPage c t n = firstPage c s n := by
  refine h.others _ fun hne heq => hn hne ?_
  exact Nat.eq_of_mul_eq_mul_right pagePerBlock_pos heq

theorem bad (h : TableLost c s t.flash) {n : ℕ}
    (hn : s.bmtBlockIndex ≠ 0 → n ≠ s.bmtBlockIndex) : bad c t.flash n = bad c s.flash n := by
  rw [bad_firstPage, bad_firstPage, h.first hn]

/-- The page of the table names no block afterwards, whichever way it is lost. -/
theorem unnamed (h0 : 0 < c.bmtBlockCount) (hc : Counts c) (h : TableLost c s t.flash)
    (hcalm : Calm c (NamesNone c) s s.bmtBlockIndex) :
    Calm c (NamesNone c) t s.bmtBlockIndex := by
  have hoob := (show 16 ≤ c.oobSize from oobSize_bounds.1)
  have hpos := (show c.pageSize ≤ badPos c ∧ badPos c < c.pageSize + 5 from badPos_bounds)
  rcases h.spare with hleft | herased
  · have hindex : getBadIndexFromOob c (firstPage c t s.bmtBlockIndex) =
        getBadIndexFromOob c (firstPage c s s.bmtBlockIndex) := by
      unfold getBadIndexFromOob oobIndexOffset firstPage
      rw [hleft _ (by omega) (by omega), hleft _ (by omega) (by omega)]
    have hmark : firstPage c t s.bmtBlockIndex (badPos c) =
        firstPage c s s.bmtBlockIndex (badPos c) := hleft _ hpos.1 badPos_lt
    rwa [Calm, bad_firstPage, NamesNone, hindex, hmark, ← bad_firstPage]
  · right
    have hindex : getBadIndexFromOob c (firstPage c t s.bmtBlockIndex) =
        getBadIndexFromOob c fun _ => 0xff := by
      unfold getBadIndexFromOob oobIndexOffset firstPage
      rw [herased _ (by omega) (by omega), herased _ (by omega) (by omega)]
    rw [NamesNone, hindex]
    exact namesNone_blank h0 hc

end TableLost

/-- The scan takes a block of the pool for a copy exactly when the table maps it. -/
theorem Settled.names_iff (h0 : 0 < c.bmtBlockCount) (hc : Counts c) {s t : St}
    (h : Settled c s) (hreads : ∀ tick page, (host.read tick page).2 = page)
    (hlost : TableLost c s t.flash) {k b : ℕ} (hk : k < c.bmtBlockCount) :
    Names c host t k b ↔ Maps s.bmt b (c.systemBlockCount + k) := by
  have htotal := hc.total
  have hpos := hc.system
  have hpool : InPool c (c.systemBlockCount + k) := ⟨Nat.le_add_right _ _, by omega⟩
  have hindex : oobIndex c host t k =
      getBadIndexFromOob c (firstPage c t (c.systemBlockCount + k)) := by
    rw [oobIndex, hreads, pageAddr_eq]
    rfl
  rw [Names, hindex]
  constructor
  · rintro ⟨hgood, hname, hsys, _⟩
    -- a block that is good and names another is not calm
    have hnot : ¬Calm c (NamesNone c) t (c.systemBlockCount + k) := by
      rintro (hbad | hnone)
      · exact absurd (hbad.symm.trans hgood) (by decide)
      · rw [NamesNone, hname] at hnone
        omega
    have hn : s.bmtBlockIndex ≠ 0 → c.systemBlockCount + k ≠ s.bmtBlockIndex := by
      intro hne heq
      rw [heq] at hnot
      exact hnot (hlost.unnamed h0 hc (h.table hne))
    have hmapped : isBlockMapped s.bmt (c.systemBlockCount + k) ≠ none := fun hfree =>
      hnot ((h.calm _ ⟨hpool, fun heq => hn (by omega) heq, hfree⟩).of_firstPage (hlost.first hn))
    obtain ⟨l, hl⟩ := isBlockMapped_iff.mp hmapped
    rwa [← hname, hlost.first hn, h.named l _ hl]
  · intro hm
    have hb := h.maps_system hm
    have hn := fun (_ : s.bmtBlockIndex ≠ 0) => h.apart b _ hm
    have hb' : s.bmtBlockIndex ≠ 0 → b ≠ s.bmtBlockIndex := by
      intro hne
      have hlow := (h.index hne).1
      omega
    rw [hlost.bad hn, hlost.first hn, hlost.bad hb']
    exact ⟨h.good b _ hm, h.named b _ hm, hb, h.marked b _ hm⟩

theorem Settled.agrees (h0 : 0 < c.bmtBlockCount) (hc : Counts c) {s : St} (h : Settled c s) :
    Agrees c s := by
  intro host fuel t hreads hlost
  have hmaps : ∀ b n, Maps (reconstructBmt c host fuel t).2.bmt b n ↔ Maps s.bmt b n := by
    intro b n
    rw [maps_iff_mem, reconstructBmt_entries hc, mem_poolEntries]
    constructor
    · rintro ⟨k, hk, hn, hnames⟩
      obtain rfl : n = c.systemBlockCount + k := hn
      exact (h.names_iff h0 hc hreads hlost hk).mp hnames
    · intro hm
      have htotal := hc.total
      obtain ⟨hlow, hhigh⟩ := h.maps_pool hm
      obtain ⟨k, rfl⟩ := Nat.exists_eq_add_of_le hlow
      have hk : k < c.bmtBlockCount := by omega
      exact ⟨k, hk, rfl, (h.names_iff h0 hc hreads hlost hk).mpr hm⟩
  exact ⟨hmaps, getMappingBlockIndex_of_maps hmaps fun _ _ _ => h.maps_unique⟩

end Iot7688.Bmt
