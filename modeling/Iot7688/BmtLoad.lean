import Iot7688.BmtRecovery

/-!
load_bmt_data on any flash. A page with the signature is taken for a table when its checksum
is right and each entry that its count byte claims lies on the chip. The checksum covers
bmt_block_count entries only, the arrays have room for MAX_BMT_SIZE, and a bad block of an
entry may lie in the pool.
-/
namespace Iot7688.Bmt

/-- The entries that a loop looks at when it ends at the first that fails. -/
def lookedAt (ok : ℕ → Bool) : List ℕ → List ℕ
  | [] => []
  | i :: is => i :: if ok i then lookedAt ok is else []

section

variable (c : Conf) (host : Host)

/-- The test of valid_bmt_data on one entry. -/
def entryOk (phys : Buf) (i : ℕ) : Bool :=
  decide ((physEntry phys i).badIndex < c.totalBlockCount ∧
    (physEntry phys i).mappedIndex < c.totalBlockCount ∧
    c.systemBlockCount ≤ (physEntry phys i).mappedIndex)

/-- The entries that valid_bmt_data looks at, those of the checksum first. -/
def validAccesses (phys : Buf) : List ℕ :=
  List.range c.bmtBlockCount ++
    if phys 6 == calBmtChecksum c phys then lookedAt (entryOk c phys) (List.range (phys 5).toNat)
    else []

/-- The entries that load_bmt_data reads from a copied page or writes to the table. -/
def loadAccesses : ℕ → St → List ℕ
  | 0, _ => []
  | n + 1, s =>
      let bmtIndex := c.systemBlockCount + n
      if nandBlockBadBmt c s.flash (c.offset bmtIndex) then loadAccesses n s
      else
        let r := nandReadPageBmt c host (c.pageAddr bmtIndex) s
        let phys : Buf := fun i => if i < physSize then r.2.pageBuf i else host.stack i
        if r.1 && matchBmtSignature r.2.pageBuf then
          validAccesses c phys ++
            if validBmtData c phys then List.range (phys 5).toNat else loadAccesses n r.2
        else loadAccesses n r.2

/-- What the load of a table from s promises. -/
structure LoadSafe (s : St) (accesses : List ℕ) (r : ℕ × St) : Prop where
  inside : ∀ i ∈ accesses, i < maxBmtSize
  count : r.1 ≠ 0 → r.2.bmt.mappedCount ≤ c.bmtBlockCount
  bads : r.1 ≠ 0 → ∀ i, i < r.2.bmt.mappedCount → (r.2.bmt.table i).badIndex < c.systemBlockCount
  pool : r.1 ≠ 0 → ∀ i, i < r.2.bmt.mappedCount → InPool c (r.2.bmt.table i).mappedIndex
  marks : ∀ p, InPool c (p / c.pagePerBlock) → r.2.flash.page p = s.flash.page p

/-- The good blocks behind block i, of the first n of the pool: each is read before it. -/
def readsAbove (flash : Flash) (n i : ℕ) : ℕ :=
  (List.range' (i + 1) (n - (i + 1))).countP fun j => !bad c flash (c.systemBlockCount + j)

/-- What the read of block i delivers, when the search starts in s with block n - 1. -/
def readBlock (n : ℕ) (s : St) (i : ℕ) : Bool × Buf :=
  host.read (s.tick + readsAbove c s.flash n i)
    (s.flash.page (c.pageAddr (c.systemBlockCount + i)))

def bufferAt (n : ℕ) (s : St) (i : ℕ) : Buf := fun k =>
  if k < c.pageSize + c.oobSize then (readBlock c host n s i).2 k else s.pageBuf k

/-- The copied page of block i. -/
def physAt (n : ℕ) (s : St) (i : ℕ) : Buf := fun k =>
  if k < physSize then bufferAt c host n s i k else host.stack k

/-- Block i is good and its page has the signature. -/
def ShowsTable (n : ℕ) (s : St) (i : ℕ) : Prop :=
  bad c s.flash (c.systemBlockCount + i) = false ∧ (readBlock c host n s i).1 = true ∧
    matchBmtSignature (bufferAt c host n s i) = true

def Taken (n : ℕ) (s : St) (i : ℕ) : Prop :=
  ShowsTable c host n s i ∧ validBmtData c (physAt c host n s i) = true

/-- A page with a right checksum has an entry, of those that fit, that is not on the chip, or it
is a table of the pool. -/
def SoundPage (phys : Buf) : Prop :=
  phys 6 = calBmtChecksum c phys →
    (∃ i, i < (phys 5).toNat ∧ i < maxBmtSize ∧ entryOk c phys i = false) ∨
    (phys 5).toNat ≤ c.bmtBlockCount ∧
      ∀ i, i < (phys 5).toNat → (physEntry phys i).badIndex < c.systemBlockCount

/-- Each page with the signature, from the last on to the one that is taken, is sound. -/
def AllSound (n : ℕ) (s : St) : Prop :=
  ∀ i, i < n → (∀ j, i < j → j < n → ¬Taken c host n s j) → ShowsTable c host n s i →
    SoundPage c (physAt c host n s i)

/-- The state in which the search goes on with the blocks before block n. -/
def nextSearch (n : ℕ) (s : St) : St :=
  if bad c s.flash (c.systemBlockCount + n) then s
  else (nandReadPageBmt c host (c.pageAddr (c.systemBlockCount + n)) s).2

end

variable {c : Conf} {host : Host}

theorem mem_lookedAt {ok : ℕ → Bool} {a k i : ℕ} : i ∈ lookedAt ok (List.range' a k) ↔
    (a ≤ i ∧ i < a + k) ∧ ∀ j, a ≤ j → j < i → ok j = true := by
  induction k generalizing a with
  | zero =>
    rw [List.range'_zero, lookedAt]
    refine ⟨fun h => absurd h List.not_mem_nil, fun h => ?_⟩
    omega
  | succ k ih =>
    rw [List.range'_succ, lookedAt, List.mem_cons]
    by_cases ha : ok a = true
    · rw [if_pos ha, ih]
      constructor
      · rintro (rfl | ⟨hi, hall⟩)
        · exact ⟨by omega, fun j hj hlt => absurd hlt (not_lt.mpr hj)⟩
        · refine ⟨by omega, fun j hj hlt => ?_⟩
          by_cases hja : j = a
          · rw [hja, ha]
          · exact hall j (by omega) hlt
      · rintro ⟨hi, hall⟩
        by_cases hia : i = a
        · exact Or.inl hia
        · exact Or.inr ⟨by omega, fun j hj hlt => hall j (by omega) hlt⟩
    · rw [if_neg ha]
      constructor
      · rintro (rfl | hnil)
        · exact ⟨by omega, fun j hj hlt => absurd hlt (not_lt.mpr hj)⟩
        · exact absurd hnil List.not_mem_nil
      · rintro ⟨hi, hall⟩
        by_contra hne
        refine ha (hall a (le_refl a) ?_)
        have hia : i ≠ a := fun h => hne (Or.inl h)
        omega

theorem validBmtData_iff_entryOk (phys : Buf) : validBmtData c phys = true ↔
    phys 6 = calBmtChecksum c phys ∧ ∀ i, i < (phys 5).toNat → entryOk c phys i = true := by
  rw [show validBmtData c phys = (phys 6 == calBmtChecksum c phys &&
    (List.range (phys 5).toNat).all (entryOk c phys)) from rfl]
  simp only [Bool.and_eq_true, beq_iff_eq, List.all_eq_true, List.mem_range]

/-- valid_bmt_data leaves the copy when the count byte is too large and each entry that fits
lies on the chip. -/
theorem validAccesses_inside (hc : Counts c) (phys : Buf) :
    (∀ i ∈ validAccesses c phys, i < maxBmtSize) ↔ (phys 6 = calBmtChecksum c phys →
      (phys 5).toNat ≤ maxBmtSize ∨ ∃ i, i < maxBmtSize ∧ entryOk c phys i = false) := by
  have hlow : ∀ i ∈ List.range c.bmtBlockCount, i < maxBmtSize := fun i hi =>
    lt_trans (List.mem_range.mp hi) hc.size
  unfold validAccesses
  rw [List.forall_mem_append, and_iff_right hlow]
  by_cases hsum : phys 6 = calBmtChecksum c phys
  · rw [if_pos (beq_iff_eq.mpr hsum), List.range_eq_range']
    simp only [mem_lookedAt, hsum, true_imp_iff]
    constructor
    · intro hinside
      by_contra hno
      have hall : ∀ j, j < maxBmtSize → entryOk c phys j = true := by
        intro j hj
        by_contra hbad
        exact hno (Or.inr ⟨j, hj, by simpa using hbad⟩)
      have hcount : maxBmtSize < (phys 5).toNat := by
        by_contra hle
        exact hno (Or.inl (by omega))
      have hlt := hinside maxBmtSize ⟨by omega, fun j _ hj => hall j hj⟩
      exact lt_irrefl _ hlt
    · rintro (hcount | ⟨j, hj, hbad⟩) i ⟨hi, hall⟩
      · omega
      · by_contra hlt
        have hok := hall j (Nat.zero_le j) (by omega)
        simp [hbad] at hok
  · rw [if_neg (by simpa using hsum)]
    exact ⟨fun _ h => absurd h hsum, fun _ i hi => absurd hi List.not_mem_nil⟩

/-- A page that is not taken is sound when its test stays inside. -/
theorem soundPage_untaken (hc : Counts c) {phys : Buf} (h : validBmtData c phys ≠ true) :
    SoundPage c phys ↔ ∀ i ∈ validAccesses c phys, i < maxBmtSize := by
  rw [validAccesses_inside hc]
  refine imp_congr_right fun hsum => ?_
  have hsize := hc.size
  have hex : ∃ i, i < (phys 5).toNat ∧ entryOk c phys i = false := by
    by_contra hno
    refine h ((validBmtData_iff_entryOk phys).mpr ⟨hsum, fun i hi => ?_⟩)
    by_contra hbad
    exact hno ⟨i, hi, by simpa using hbad⟩
  obtain ⟨k, hk, hbad⟩ := hex
  constructor
  · rintro (⟨i, _, hi, hbad'⟩ | ⟨hcount, _⟩)
    · exact Or.inr ⟨i, hi, hbad'⟩
    · exact Or.inl (by omega)
  · rintro (hcount | ⟨i, hi, hbad'⟩)
    · exact Or.inl ⟨k, hk, by omega, hbad⟩
    · by_cases hlt : i < (phys 5).toNat
      · exact Or.inl ⟨i, hlt, hi, hbad'⟩
      · exact Or.inl ⟨k, hk, by omega, hbad⟩

/-- A page that is taken is sound when it is a table of the pool. -/
theorem soundPage_taken {phys : Buf} (h : validBmtData c phys = true) :
    SoundPage c phys ↔ (phys 5).toNat ≤ c.bmtBlockCount ∧
      ∀ i, i < (phys 5).toNat → (physEntry phys i).badIndex < c.systemBlockCount := by
  obtain ⟨hsum, hall⟩ := (validBmtData_iff_entryOk phys).mp h
  constructor
  · intro hsound
    rcases hsound hsum with ⟨i, hi, _, hbad⟩ | htable
    · have hok := hall i hi
      simp [hbad] at hok
    · exact htable
  · exact fun htable _ => Or.inr htable

theorem readsAbove_last (flash : Flash) (n : ℕ) : readsAbove c flash (n + 1) n = 0 := by
  simp [readsAbove]

theorem readsAbove_succ (flash : Flash) {n i : ℕ} (hi : i < n) :
    readsAbove c flash (n + 1) i =
      readsAbove c flash n i + if bad c flash (c.systemBlockCount + n) then 0 else 1 := by
  unfold readsAbove
  rw [show n + 1 - (i + 1) = (n - (i + 1)) + 1 by omega, List.range'_concat, List.countP_append,
    List.countP_singleton, show i + 1 + 1 * (n - (i + 1)) = n by omega]
  cases bad c flash (c.systemBlockCount + n) with
  | true => rfl
  | false => rfl

theorem nextSearch_flash (n : ℕ) (s : St) : (nextSearch c host n s).flash = s.flash := by
  unfold nextSearch
  split
  · rfl
  · rfl

theorem nextSearch_tick (n : ℕ) (s : St) : (nextSearch c host n s).tick =
    s.tick + if bad c s.flash (c.systemBlockCount + n) then 0 else 1 := by
  unfold nextSearch
  split
  · rfl
  · rfl

theorem readBlock_succ (s : St) {n i : ℕ} (hi : i < n) :
    readBlock c host (n + 1) s i = readBlock c host n (nextSearch c host n s) i := by
  unfold readBlock
  rw [readsAbove_succ s.flash hi, nextSearch_flash, nextSearch_tick]
  congr 1
  omega

theorem bufferAt_succ (s : St) {n i : ℕ} (hi : i < n) :
    bufferAt c host (n + 1) s i = bufferAt c host n (nextSearch c host n s) i := by
  funext k
  unfold bufferAt
  rw [readBlock_succ s hi]
  split
  · rfl
  · rename_i hk
    unfold nextSearch
    split
    · rfl
    · exact (if_neg hk).symm

theorem physAt_succ (s : St) {n i : ℕ} (hi : i < n) :
    physAt c host (n + 1) s i = physAt c host n (nextSearch c host n s) i := by
  unfold physAt
  rw [bufferAt_succ s hi]

theorem showsTable_succ (s : St) {n i : ℕ} (hi : i < n) :
    ShowsTable c host (n + 1) s i ↔ ShowsTable c host n (nextSearch c host n s) i := by
  unfold ShowsTable
  rw [readBlock_succ s hi, bufferAt_succ s hi, nextSearch_flash]

theorem taken_succ (s : St) {n i : ℕ} (hi : i < n) :
    Taken c host (n + 1) s i ↔ Taken c host n (nextSearch c host n s) i := by
  unfold Taken
  rw [showsTable_succ s hi, physAt_succ s hi]

/-- The last block comes first, and the others only when it is not taken. -/
theorem allSound_succ (n : ℕ) (s : St) : AllSound c host (n + 1) s ↔
    (ShowsTable c host (n + 1) s n → SoundPage c (physAt c host (n + 1) s n)) ∧
      (¬Taken c host (n + 1) s n → AllSound c host n (nextSearch c host n s)) := by
  constructor
  · intro hall
    refine ⟨fun hshows => hall n (by omega) (fun j hj hlt => by omega) hshows, ?_⟩
    intro huntaken i hi hreached hshows
    rw [← physAt_succ s hi]
    refine hall i (by omega) (fun j hij hj => ?_) ((showsTable_succ s hi).mpr hshows)
    by_cases hjn : j = n
    · rw [hjn]
      exact huntaken
    · rw [taken_succ s (by omega)]
      exact hreached j hij (by omega)
  · rintro ⟨hlast, hrest⟩ i hi hreached hshows
    by_cases hin : i = n
    · rw [hin] at hshows ⊢
      exact hlast hshows
    · have hlt : i < n := by omega
      rw [physAt_succ s hlt]
      refine hrest (hreached n hlt (by omega)) i hlt (fun j hij hj => ?_)
        ((showsTable_succ s hlt).mp hshows)
      rw [← taken_succ s hj]
      exact hreached j hij (by omega)

theorem bufferAt_last (n : ℕ) (s : St) : bufferAt c host (n + 1) s n =
    (nandReadPageBmt c host (c.pageAddr (c.systemBlockCount + n)) s).2.pageBuf := by
  unfold bufferAt readBlock
  rw [readsAbove_last]
  rfl

theorem readBlock_last (n : ℕ) (s : St) : (readBlock c host (n + 1) s n).1 =
    (nandReadPageBmt c host (c.pageAddr (c.systemBlockCount + n)) s).1 := by
  unfold readBlock
  rw [readsAbove_last]
  rfl

/-- One step of the search, of the loader and of its accesses. -/
theorem search_succ (n : ℕ) (s : St) :
    let phys := physAt c host (n + 1) s n
    let t := nextSearch c host n s
    (¬ShowsTable c host (n + 1) s n →
      loadBmtData c host (n + 1) s = loadBmtData c host n t ∧
        loadAccesses c host (n + 1) s = loadAccesses c host n t) ∧
    (ShowsTable c host (n + 1) s n → validBmtData c phys ≠ true →
      loadBmtData c host (n + 1) s = loadBmtData c host n t ∧
        loadAccesses c host (n + 1) s = validAccesses c phys ++ loadAccesses c host n t) ∧
    (ShowsTable c host (n + 1) s n → validBmtData c phys = true →
      loadBmtData c host (n + 1) s = (c.systemBlockCount + n, takeTable c host phys t) ∧
        loadAccesses c host (n + 1) s =
          validAccesses c phys ++ List.range (phys 5).toNat) := by
  intro phys t
  have hphys : phys = fun i => if i < physSize then
      (nandReadPageBmt c host (c.pageAddr (c.systemBlockCount + n)) s).2.pageBuf i
      else host.stack i := by
    show physAt c host (n + 1) s n = _
    unfold physAt
    rw [bufferAt_last]
  unfold ShowsTable
  rw [bufferAt_last, readBlock_last, loadBmtData_succ, loadAccesses]
  dsimp only
  rw [← hphys]
  by_cases hbad : bad c s.flash (c.systemBlockCount + n) = true
  · have ht : t = s := if_pos hbad
    rw [if_pos hbad, if_pos (show nandBlockBadBmt c s.flash _ = true from hbad), ht]
    simp [hbad]
  · have ht : t = (nandReadPageBmt c host (c.pageAddr (c.systemBlockCount + n)) s).2 :=
      if_neg hbad
    rw [if_neg hbad, if_neg (show ¬nandBlockBadBmt c s.flash _ = true from hbad), ht]
    rw [Bool.not_eq_true] at hbad
    set r := nandReadPageBmt c host (c.pageAddr (c.systemBlockCount + n)) s with hr
    cases hshow : r.1 && matchBmtSignature r.2.pageBuf with
    | false =>
      have hno : ¬(r.1 = true ∧ matchBmtSignature r.2.pageBuf = true) := by
        rw [← Bool.and_eq_true, hshow]
        decide
      simp [hno]
    | true =>
      rw [Bool.and_eq_true] at hshow
      cases hvalid : validBmtData c phys with
      | false => simp [hbad, hshow.1, hshow.2]
      | true =>
        have hcount : (if 5 < physSize then r.2.pageBuf 5 else host.stack 5) = phys 5 := by
          rw [hphys]
        simp [hbad, hshow.1, hshow.2, hcount]

theorem markLoaded_page (is : List ℕ) (s : St) {p : ℕ}
    (h : ∀ i ∈ is, p ≠ (s.bmt.table i).badIndex * c.pagePerBlock) :
    (markLoaded c host is s).flash.page p = s.flash.page p := by
  induction is generalizing s with
  | nil => rfl
  | cons i is ih =>
    have hrest : ∀ j ∈ is, p ≠ (s.bmt.table j).badIndex * c.pagePerBlock := fun j hj =>
      h j (List.mem_cons_of_mem _ hj)
    rw [markLoaded]
    split
    · exact ih s hrest
    · rw [ih (markBlockBadBmt c host (c.offset (s.bmt.table i).badIndex) s) hrest]
      refine markBlockBadBmt_page s ?_
      rw [offset_page]
      exact h i List.mem_cons_self

/-- The accesses of a table that is taken and its entries are those of a table of the pool
when the page is sound. -/
theorem loadSafe_taken (hc : Counts c) {n : ℕ} {s t : St} {phys : Buf} (hflash : t.flash = s.flash)
    (h : validBmtData c phys = true) :
    LoadSafe c s (validAccesses c phys ++ List.range (phys 5).toNat)
      (c.systemBlockCount + n, takeTable c host phys t) ↔ SoundPage c phys := by
  have hsystem := hc.system
  have hsize := hc.size
  have hne : c.systemBlockCount + n ≠ 0 := by omega
  have hbmt := (@markLoaded_bmt c host (List.range (phys 5).toNat) { t with
    bmt := { t.bmt with
      mappedCount := (phys 5).toNat
      version := (phys 3).toNat
      table := fun i => if i < (phys 5).toNat then physEntry phys i else t.bmt.table i } }).1
  have hcount : (takeTable c host phys t).bmt.mappedCount = (phys 5).toNat := by
    rw [takeTable, hbmt]
  have hentry : ∀ i, i < (phys 5).toNat →
      (takeTable c host phys t).bmt.table i = physEntry phys i := by
    intro i hi
    rw [takeTable, hbmt]
    exact if_pos hi
  rw [soundPage_taken h]
  constructor
  · intro hsafe
    have hle := hsafe.count hne
    rw [hcount] at hle
    refine ⟨hle, fun i hi => ?_⟩
    rw [← hentry i hi]
    exact hsafe.bads hne i (by rwa [hcount])
  · rintro ⟨hle, hbads⟩
    have hall := ((validBmtData_iff phys).mp h).2
    refine ⟨?_, fun _ => hcount ▸ hle, fun _ i hi => ?_, fun _ i hi => ?_, fun p hp => ?_⟩
    · rw [List.forall_mem_append]
      refine ⟨(validAccesses_inside hc phys).mpr fun _ => Or.inl (by omega), fun i hi => ?_⟩
      have := List.mem_range.mp hi
      omega
    · rw [hcount] at hi
      show ((takeTable c host phys t).bmt.table i).badIndex < _
      rw [hentry i hi]
      exact hbads i hi
    · rw [hcount] at hi
      show InPool c ((takeTable c host phys t).bmt.table i).mappedIndex
      rw [hentry i hi]
      exact (hall i hi).2
    · show (takeTable c host phys t).flash.page p = s.flash.page p
      rw [takeTable, markLoaded_page]
      · show t.flash.page p = s.flash.page p
        rw [hflash]
      · intro i hi hpi
        have hi' := List.mem_range.mp hi
        dsimp only at hpi
        rw [if_pos hi'] at hpi
        rw [hpi, page_block] at hp
        exact absurd hp.1 (not_le.mpr (hbads i hi'))

/-- The load is safe exactly when each page that is looked into is sound. -/
theorem loadSafe_iff (hc : Counts c) (n : ℕ) (s : St) :
    LoadSafe c s (loadAccesses c host n s) (loadBmtData c host n s) ↔ AllSound c host n s := by
  induction n generalizing s with
  | zero =>
    refine ⟨fun _ i hi => absurd hi (Nat.not_lt_zero i), fun _ => ?_⟩
    exact ⟨fun i hi => absurd hi List.not_mem_nil, fun h => absurd rfl h, fun h => absurd rfl h,
      fun h => absurd rfl h, fun _ _ => rfl⟩
  | succ n ih =>
    obtain ⟨hskip, hreject, htake⟩ := @search_succ c host n s
    have hflash : (nextSearch c host n s).flash = s.flash := nextSearch_flash n s
    have hframe : ∀ accesses r, LoadSafe c (nextSearch c host n s) accesses r ↔
        LoadSafe c s accesses r := fun accesses r =>
      ⟨fun h => { h with marks := hflash ▸ h.marks }, fun h => { h with marks := hflash ▸ h.marks }⟩
    rw [allSound_succ]
    by_cases hshows : ShowsTable c host (n + 1) s n
    · by_cases hvalid : validBmtData c (physAt c host (n + 1) s n) = true
      · obtain ⟨hload, haccess⟩ := htake hshows hvalid
        have htaken : Taken c host (n + 1) s n := ⟨hshows, hvalid⟩
        rw [hload, haccess, loadSafe_taken hc hflash hvalid]
        exact ⟨fun h => ⟨fun _ => h, fun hnot => absurd htaken hnot⟩, fun h => h.1 hshows⟩
      · obtain ⟨hload, haccess⟩ := hreject hshows hvalid
        have huntaken : ¬Taken c host (n + 1) s n := fun h => hvalid h.2
        rw [hload, haccess, soundPage_untaken hc hvalid, ← ih, hframe]
        constructor
        · intro h
          obtain ⟨hhere, hthere⟩ := List.forall_mem_append.mp h.inside
          exact ⟨fun _ => hhere, fun _ => { h with inside := hthere }⟩
        · rintro ⟨hhere, hthere⟩
          have hrest := hthere huntaken
          exact { hrest with inside := List.forall_mem_append.mpr ⟨hhere hshows, hrest.inside⟩ }
    · obtain ⟨hload, haccess⟩ := hskip hshows
      have huntaken : ¬Taken c host (n + 1) s n := fun h => hshows h.1
      rw [hload, haccess, ← hframe, ih]
      exact ⟨fun h => ⟨fun hs => absurd hs hshows, fun _ => h⟩, fun h => h.2 huntaken⟩

/-- On any flash, the load of a table is safe exactly when each page that it looks into, up to
the one that it takes, has an entry off the chip among those that fit or is a table of the
pool. -/
theorem load_bmt_data_safe_iff (h0 : 0 < c.bmtBlockCount) (hsize : c.bmtBlockCount < maxBmtSize)
    (host : Host) (s : St) :
    LoadSafe c s (loadAccesses c host c.bmtBlockCount s) (loadBmtData c host c.bmtBlockCount s) ↔
      AllSound c host c.bmtBlockCount s :=
  loadSafe_iff (counts_of_size h0 hsize) c.bmtBlockCount s

theorem load_bmt_data_safe_blank :
    let s := powerOn ⟨fun _ _ => 0xff, fun _ => true⟩
    LoadSafe ⟨1, 2⟩ s (loadAccesses ⟨1, 2⟩ quietHost 2 s) (loadBmtData ⟨1, 2⟩ quietHost 2 s) := by
  intro s
  refine (load_bmt_data_safe_iff (by decide) (by decide) quietHost s).mpr fun i _ _ hshows => ?_
  have hblank : matchBmtSignature (bufferAt ⟨1, 2⟩ quietHost 2 s i) = false := rfl
  exact absurd (hshows.2.2.symm.trans hblank) (by decide)

/-- A page with the signature and a right checksum, whose entries are all the same. -/
def forgedPage (c : Conf) (count : Byte) (e : BmtEntry) : Buf :=
  let phys : Buf := fun i =>
    if i = 0 then 0x42
    else if i = 1 then 0x4d
    else if i = 2 then 0x54
    else if i = 5 then count
    else if physHeaderSize ≤ i ∧ i < physSize then entryByte e ((i - physHeaderSize) % 4)
    else 0xff
  Function.update phys 6 (calBmtChecksum c phys)

/-- A chip of 1024 blocks, the last two of which are the pool, with the page in its last block. -/
def forgedPool (count : Byte) (e : BmtEntry) : St :=
  powerOn ⟨fun p => if p = 1023 * 64 then forgedPage ⟨1, 2⟩ count e else fun _ => 0xff,
    fun _ => false⟩

/-- With 129 entries the test reads behind the copy; with one entry for block 1022 of the pool
the table is taken and that block is marked bad. -/
theorem forged_table_taken :
    let load := fun s =>
      LoadSafe ⟨1, 2⟩ s (loadAccesses ⟨1, 2⟩ quietHost 2 s) (loadBmtData ⟨1, 2⟩ quietHost 2 s)
    ¬load (forgedPool 129 ⟨0, 1022⟩) ∧ ¬load (forgedPool 1 ⟨1022, 1023⟩) := by
  refine ⟨fun h => ?_, fun h => ?_⟩
  · have hread : 128 ∈ loadAccesses ⟨1, 2⟩ quietHost 2 (forgedPool 129 ⟨0, 1022⟩) := by
      decide +kernel
    exact absurd (h.inside 128 hread) (by decide)
  · have htaken : (loadBmtData ⟨1, 2⟩ quietHost 2 (forgedPool 1 ⟨1022, 1023⟩)).1 ≠ 0 := by
      decide +kernel
    exact absurd (h.bads htaken 0 (by decide +kernel)) (by decide +kernel)

end Iot7688.Bmt
