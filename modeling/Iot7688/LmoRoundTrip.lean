import Iot7688.Lib.BinarySearch
import Iot7688.Po2lmo

/-!
From a PO text to translations. The archive that the converter writes holds the values
of the entries whose hashes differ, and the search finds an entry by the hash of its
key; the hash that is looked for is the one of the squeezed key.
-/
namespace Iot7688.Po2lmo

open Lib Lmo
open Template (ascii)

theorem midpoint_toNat {l r : UInt32} (hr : r.toNat < 2 ^ 31) (hle : l.toNat ≤ r.toNat) :
    (l + (r - l) / 2).toNat = Lib.midpoint l.toNat r.toNat := by
  have hdiff : (r - l).toNat = r.toNat - l.toNat :=
    UInt32.toNat_sub_of_le r l (UInt32.le_iff_toNat_le.mpr hle)
  have htwo : (2 : UInt32).toNat = 2 := rfl
  rw [UInt32.toNat_add, UInt32.toNat_div, hdiff, htwo, Lib.midpoint]
  omega

theorem pred_toNat {x : UInt32} (h : x ≠ 0) : (x - 1).toNat = x.toNat - 1 := by
  have hpos : x.toNat ≠ 0 := fun hzero => h (UInt32.toNat_inj.mp hzero)
  have hone : (1 : UInt32).toNat = 1 := rfl
  rw [UInt32.toNat_sub_of_le x 1 (UInt32.le_iff_toNat_le.mpr (by omega)), hone]

/-- The search is binary search, as nothing wraps below 2 ^ 31. -/
theorem findLoop_eq (keyId : ℕ → UInt32) (hash : UInt32) (rounds : ℕ) {l r : UInt32}
    (hr : r.toNat < 2 ^ 31) (hlr : l.toNat ≤ r.toNat + 1) :
    findLoop keyId hash rounds l r =
      (binarySearch (fun m => (keyId m).toNat) hash.toNat rounds l.toNat r.toNat).map
        (Option.map UInt32.ofNat) := by
  induction rounds generalizing l r with
  | zero => rfl
  | succ rounds ih =>
    unfold findLoop binarySearch
    dsimp only
    by_cases hlt : r < l
    · rw [if_pos hlt, if_pos (UInt32.lt_iff_toNat_lt.mp hlt)]
      rfl
    · have hle : l.toNat ≤ r.toNat := not_lt.mp fun h => hlt (UInt32.lt_iff_toNat_lt.mpr h)
      have hm := midpoint_toNat hr hle
      have hlow := le_midpoint l.toNat r.toNat
      have hhigh := midpoint_le hle
      rw [if_neg hlt, if_neg (not_lt.mpr hle)]
      generalize hmid : l + (r - l) / 2 = m at hm ⊢
      rw [hm, ← Lib.midpoint]
      generalize Lib.midpoint l.toNat r.toNat = mid at hm hlow hhigh ⊢
      by_cases hkey : keyId mid = hash
      · rw [if_pos hkey, if_pos (congrArg UInt32.toNat hkey), ← hm]
        show some (some m) = some (some (UInt32.ofNat m.toNat))
        rw [UInt32.ofNat_toNat]
      · rw [if_neg hkey, if_neg fun h => hkey (UInt32.toNat_inj.mp h)]
        by_cases hless : hash < keyId mid
        · rw [if_pos hless, if_pos (UInt32.lt_iff_toNat_lt.mp hless)]
          by_cases hzero : m = 0
          · rw [if_pos hzero, if_pos (hm ▸ congrArg UInt32.toNat hzero)]
            rfl
          · have hpos : mid ≠ 0 := fun h => hzero (UInt32.toNat_inj.mp (hm.trans h))
            have hpred : (m - 1).toNat = mid - 1 := by rw [pred_toNat hzero, hm]
            rw [if_neg hzero, if_neg hpos, ← hpred]
            exact ih (by omega) (by omega)
        · have hsucc : (m + 1).toNat = mid + 1 := by
            rw [UInt32.toNat_add, hm]
            show (mid + 1) % _ = _
            omega
          rw [if_neg hless, if_neg fun h => hless (UInt32.lt_iff_toNat_lt.mpr h), ← hsucc]
          exact ih hr (by omega)

theorem mapping_bytes {f : Mapping} {p n : ℕ} (h : p + n ≤ f.data.length) :
    f.bytes p n = (f.data.drop p).take n := by
  unfold Mapping.bytes
  refine List.ext_getElem ?_ fun i hi hi' => ?_
  · simp
    omega
  · rw [List.getElem_map, List.getElem_range, List.getElem_take, List.getElem_drop]
    rw [List.length_map, List.length_range] at hi
    unfold Mapping.byte
    rw [if_pos (by omega), show ((p : ℤ) + (i : ℤ)).toNat = p + i by omega]
    rw [List.getD_eq_getElem?_getD, List.getElem?_eq_getElem (by omega)]
    rfl

theorem mapping_word {f : Mapping} {p : ℤ} (front rear : List Byte) {x : UInt32}
    (h : f.data = front ++ be32 x ++ rear) (hp : p = front.length) : f.word p = x := by
  subst hp
  have hlen := congrArg List.length h
  rw [List.length_append, List.length_append, be32_length] at hlen
  unfold Mapping.word
  rw [mapping_bytes (by omega), h, List.append_assoc, List.drop_left,
    List.take_append_of_le_length (by rw [be32_length]), List.take_of_length_le (by
      rw [be32_length])]
  exact ofBe32_be32 x

theorem entryBytes_length (e : LmoEntry) : (entryBytes e).length = 16 := by
  unfold entryBytes
  simp only [List.length_append, be32_length]

theorem flatMap_entryBytes_length (l : List LmoEntry) :
    (l.flatMap entryBytes).length = 16 * l.length := by
  induction l with
  | nil => rfl
  | cons e l ih =>
    rw [List.flatMap_cons, List.length_append, entryBytes_length, ih, List.length_cons]
    omega

/-- The index around the entry m. -/
theorem index_split {l : List LmoEntry} {m : ℕ} (hm : m < l.length) :
    ∃ front rear, l.flatMap entryBytes = front ++ entryBytes l[m] ++ rear ∧
      front.length = 16 * m := by
  refine ⟨(l.take m).flatMap entryBytes, (l.drop (m + 1)).flatMap entryBytes, ?_, ?_⟩
  · conv_lhs => rw [← List.take_append_drop m l, List.drop_eq_getElem_cons hm]
    rw [List.flatMap_append, List.flatMap_cons, List.append_assoc]
  · rw [flatMap_entryBytes_length, List.length_take]
    omega

/-- More rounds do not change what a search finds. -/
theorem findLoop_mono {keyId : ℕ → UInt32} {hash : UInt32} {n : ℕ} {l r : UInt32}
    {found : Option UInt32} (h : findLoop keyId hash n l r = some found) {n' : ℕ} (hn : n ≤ n') :
    findLoop keyId hash n' l r = some found := by
  induction n generalizing n' l r with
  | zero => exact absurd h (by simp [findLoop])
  | succ n ih =>
    obtain ⟨k, rfl⟩ := Nat.exists_eq_add_of_le' hn
    rw [show k + (n + 1) = k + n + 1 by omega]
    unfold findLoop at h ⊢
    dsimp only at h ⊢
    split
    · rename_i hlt
      rwa [if_pos hlt] at h
    · rename_i hlt
      rw [if_neg hlt] at h
      split
      · rename_i hkey
        rwa [if_pos hkey] at h
      · rename_i hkey
        rw [if_neg hkey] at h
        split
        · rename_i hless
          rw [if_pos hless] at h
          split
          · rename_i hzero
            rwa [if_pos hzero] at h
          · rename_i hzero
            rw [if_neg hzero] at h
            exact ih h (by omega)
        · rename_i hless
          rw [if_neg hless] at h
          exact ih h (by omega)

theorem translateIn_mono {hash : UInt32} {archives : List LmoArchive} {n : ℕ}
    {result : ℤ × List Byte} (h : translateIn n hash archives = some result) {n' : ℕ}
    (hn : n ≤ n') : translateIn n' hash archives = some result := by
  induction archives with
  | nil => exact h
  | cons ar archives ih =>
    unfold translateIn at h ⊢
    cases hfind : lmoFindEntry n ar hash with
    | none =>
      rw [hfind] at h
      exact absurd h (by simp)
    | some found =>
      rw [hfind] at h
      rw [show lmoFindEntry n' ar hash = some found from findLoop_mono hfind hn]
      cases found with
      | none => exact ih h
      | some m => exact h

theorem lmoTranslate_mono {active : Option (List LmoArchive)} {key : List Byte} {n : ℕ}
    {result : ℤ × List Byte} (h : lmoTranslate n active key = some result) {n' : ℕ} (hn : n ≤ n') :
    lmoTranslate n' active key = some result := by
  cases active with
  | none => exact h
  | some archives => exact translateIn_mono h hn

/-- The file that is written for a state. -/
def fileBytes (s : PoState) : List Byte :=
  s.out ++ indexBytes s.array ++ be32 (UInt32.ofNat s.offset)

theorem sortIndex_length (array : List LmoEntry) : (sortIndex array).length = array.length :=
  List.length_insertionSort _ _

theorem fileBytes_length (s : PoState) :
    (fileBytes s).length = s.out.length + 16 * s.array.length + 4 := by
  unfold fileBytes indexBytes
  rw [List.length_append, List.length_append, be32_length, flatMap_entryBytes_length,
    sortIndex_length]

/-- The archive that is opened on the file. -/
theorem lmoOpen_file {s : PoState} (around : ℤ → Byte) (hoffset : s.offset = s.out.length)
    (hsize : (fileBytes s).length < 2 ^ 31) :
    ∃ ar, lmoOpen ⟨fileBytes s, around⟩ = some ar ∧ ar.mmap = ⟨fileBytes s, around⟩ ∧
      ar.index.toNat = s.out.length ∧ ar.length.toNat = s.array.length := by
  have hlen := fileBytes_length s
  set f : Mapping := ⟨fileBytes s, around⟩ with hf
  set n := (fileBytes s).length with hn
  have hne : f.data ≠ [] := by
    intro hnil
    have hzero : n = 0 := congrArg List.length hnil
    omega
  have hsizeNat : (UInt32.ofNat n).toNat = n := by
    rw [UInt32.toNat_ofNat']
    omega
  have hword : f.word ((UInt32.ofNat n).toNat - 4) = UInt32.ofNat s.offset := by
    rw [hsizeNat, show (n : ℤ) - 4 = ((n - 4 : ℕ) : ℤ) by omega]
    refine mapping_word (s.out ++ indexBytes s.array) [] (List.append_nil _).symm ?_
    unfold indexBytes
    rw [List.length_append, flatMap_entryBytes_length, sortIndex_length]
    omega
  have hidx : (UInt32.ofNat s.offset).toNat = s.out.length := by
    rw [UInt32.toNat_ofNat', hoffset]
    omega
  have hlt : ¬UInt32.ofNat n ≤ UInt32.ofNat s.offset := by
    rw [UInt32.le_iff_toNat_le, hsizeNat, hidx]
    omega
  refine ⟨⟨(UInt32.ofNat n - UInt32.ofNat s.offset - 4) / 16, UInt32.ofNat n,
    UInt32.ofNat s.offset, f⟩, ?_, rfl, hidx, ?_⟩
  · unfold lmoOpen
    rw [if_neg hne]
    show (if UInt32.ofNat n ≤ f.word ((UInt32.ofNat n).toNat - 4) then none else
      some (⟨(UInt32.ofNat n - f.word ((UInt32.ofNat n).toNat - 4) - 4) / 16, UInt32.ofNat n,
        f.word ((UInt32.ofNat n).toNat - 4), f⟩ : LmoArchive)) = _
    rw [hword, if_neg hlt]
  · have hdiff : (UInt32.ofNat n - UInt32.ofNat s.offset).toNat = n - s.out.length := by
      rw [UInt32.toNat_sub_of_le _ _ (UInt32.le_iff_toNat_le.mpr (by omega)), hsizeNat, hidx]
    have hfour : (4 : UInt32).toNat = 4 := rfl
    have hsixteen : (16 : UInt32).toNat = 16 := rfl
    rw [UInt32.toNat_div, UInt32.toNat_sub_of_le _ _ (UInt32.le_iff_toNat_le.mpr (by
      rw [hdiff, hfour]
      omega)), hdiff, hfour, hsixteen]
    omega

/-- The fields of the entry m in the archive. -/
theorem archive_entry {s : PoState} {around : ℤ → Byte} {ar : LmoArchive}
    (hmmap : ar.mmap = ⟨fileBytes s, around⟩) (hindex : ar.index.toNat = s.out.length) {m : ℕ}
    (hm : m < (sortIndex s.array).length) :
    ar.keyId m = (sortIndex s.array)[m].keyId ∧ ar.offset m = (sortIndex s.array)[m].offset ∧
      ar.valLength m = (sortIndex s.array)[m].length := by
  obtain ⟨front, rear, hsplit, hfront⟩ := index_split hm
  set e := (sortIndex s.array)[m]
  have hdata : ar.mmap.data = (s.out ++ front) ++ (be32 e.keyId ++ be32 e.valId ++
      be32 e.offset ++ be32 e.length) ++ (rear ++ be32 (UInt32.ofNat s.offset)) := by
    rw [hmmap]
    show s.out ++ (sortIndex s.array).flatMap entryBytes ++ _ = _
    rw [hsplit, entryBytes]
    simp only [List.append_assoc]
  have hplace : (s.out ++ front).length = s.out.length + 16 * m := by
    rw [List.length_append, hfront]
  unfold LmoArchive.keyId LmoArchive.offset LmoArchive.valLength
  rw [hindex]
  refine ⟨mapping_word (s.out ++ front) (be32 e.valId ++ be32 e.offset ++ be32 e.length ++
      (rear ++ be32 (UInt32.ofNat s.offset))) ?_ ?_,
    mapping_word (s.out ++ front ++ be32 e.keyId ++ be32 e.valId) (be32 e.length ++
      (rear ++ be32 (UInt32.ofNat s.offset))) ?_ ?_,
    mapping_word (s.out ++ front ++ be32 e.keyId ++ be32 e.valId ++ be32 e.offset)
      (rear ++ be32 (UInt32.ofNat s.offset)) ?_ ?_⟩
  · rw [hdata]
    simp only [List.append_assoc]
  · rw [hplace]
    omega
  · rw [hdata]
    simp only [List.append_assoc]
  · rw [List.length_append, List.length_append, hplace, be32_length, be32_length]
    omega
  · rw [hdata]
    simp only [List.append_assoc]
  · rw [List.length_append, List.length_append, List.length_append, hplace, be32_length,
      be32_length, be32_length]
    omega

theorem mem_sortIndex {array : List LmoEntry} {a : LmoEntry} : a ∈ sortIndex array ↔ a ∈ array :=
  List.mem_insertionSort _

instance : Std.Total fun a b : LmoEntry => a.keyId ≤ b.keyId := ⟨fun _ _ => UInt32.le_total _ _⟩

instance : IsTrans LmoEntry fun a b => a.keyId ≤ b.keyId := ⟨fun _ _ _ => UInt32.le_trans⟩

theorem sortIndex_sorted (array : List LmoEntry) {i j : ℕ} (hij : i ≤ j)
    (hj : j < (sortIndex array).length) :
    (sortIndex array)[i].keyId ≤ (sortIndex array)[j].keyId := by
  rcases Nat.eq_or_lt_of_le hij with rfl | hlt
  · exact UInt32.le_refl _
  · exact List.pairwise_iff_getElem.mp (List.pairwise_insertionSort _ array) i j _ hj hlt

/-- The entry that the search finds for a hash, if there is one. -/
theorem lmoFindEntry_file {s : PoState} {around : ℤ → Byte} {ar : LmoArchive}
    (hmmap : ar.mmap = ⟨fileBytes s, around⟩) (hindex : ar.index.toNat = s.out.length)
    (hlength : ar.length.toNat = s.array.length) (hne : s.array ≠ [])
    (hsize : s.array.length < 2 ^ 31) (hash : UInt32) {rounds : ℕ}
    (hrounds : s.array.length < rounds) :
    (lmoFindEntry rounds ar hash = some none ∧ ∀ a ∈ s.array, a.keyId ≠ hash) ∨
      ∃ m a, lmoFindEntry rounds ar hash = some (some m) ∧ a ∈ s.array ∧ a.keyId = hash ∧
        ar.offset m.toNat = a.offset ∧ ar.valLength m.toNat = a.length := by
  have hpos := List.length_pos_iff.mpr hne
  have hlen := sortIndex_length s.array
  have hlast : (ar.length - 1).toNat = s.array.length - 1 := by
    rw [UInt32.toNat_sub_of_le _ _ (UInt32.le_iff_toNat_le.mpr (by
      show 1 ≤ ar.length.toNat
      omega)), hlength]
    rfl
  have hentry : ∀ m, (hm : m < (sortIndex s.array).length) → _ := fun m hm =>
    archive_entry hmmap hindex hm
  have hsearch := findLoop_eq ar.keyId hash rounds (show (ar.length - 1).toNat < 2 ^ 31 by omega)
    (show (0 : UInt32).toNat ≤ (ar.length - 1).toNat + 1 from Nat.zero_le _)
  have hstart : (0 : UInt32).toNat = 0 := rfl
  rw [hlast, hstart] at hsearch
  obtain ⟨found, hfound⟩ := binarySearch_total (fun m => (ar.keyId m).toNat) hash.toNat
    (show 0 ≤ s.array.length - 1 + 1 from Nat.zero_le _)
    (show s.array.length - 1 + 1 < rounds + 0 by omega)
  rw [hfound] at hsearch
  cases found with
  | none =>
    refine Or.inl ⟨hsearch, fun a ha hkey => ?_⟩
    obtain ⟨m, hm, hget⟩ := List.getElem_of_mem (mem_sortIndex.mpr ha)
    refine binarySearch_complete (fun i j _ hij hj => ?_) hfound (Nat.zero_le m)
      (show m ≤ s.array.length - 1 by omega) ?_
    · show (ar.keyId i).toNat ≤ (ar.keyId j).toNat
      rw [(hentry i (by omega)).1, (hentry j (by omega)).1]
      exact UInt32.le_iff_toNat_le.mp (sortIndex_sorted s.array hij (by omega))
    · show (ar.keyId m).toNat = hash.toNat
      rw [(hentry m hm).1, ← hkey, ← hget]
  | some m =>
    obtain ⟨_, hm, hkey⟩ := binarySearch_sound hfound
    have hm' : m < (sortIndex s.array).length := by omega
    have hnat : (UInt32.ofNat m).toNat = m := by
      rw [UInt32.toNat_ofNat']
      omega
    obtain ⟨hkeyId, hoffset, hlen'⟩ := hentry m hm'
    refine Or.inr ⟨UInt32.ofNat m, (sortIndex s.array)[m], hsearch,
      mem_sortIndex.mp (List.getElem_mem hm'), ?_, ?_, ?_⟩
    · rw [← hkeyId]
      exact UInt32.toNat_inj.mp hkey
    · rw [hnat, hoffset]
    · rw [hnat, hlen']

/-- Each written entry has its place in the index, and each place its entry. -/
theorem index_mem {entries : List PoEntry} {s : PoState} (h : Written entries s) :
    (∀ e ∈ stored entries, ∃ a ∈ s.array, EntryAt s e a) ∧
      ∀ a ∈ s.array, ∃ e ∈ stored entries, EntryAt s e a := by
  have hlen := h.index.length_eq
  constructor
  · intro e he
    obtain ⟨i, hi, rfl⟩ := List.getElem_of_mem he
    exact ⟨_, List.getElem_mem (hlen ▸ hi), h.index.get hi (hlen ▸ hi)⟩
  · intro a ha
    obtain ⟨i, hi, rfl⟩ := List.getElem_of_mem ha
    exact ⟨_, List.getElem_mem (hlen ▸ hi), h.index.get (hlen ▸ hi) hi⟩

/-- The bytes that a written entry stands for. -/
theorem entry_bytes {s : PoState} {e : PoEntry} {a : LmoEntry} (h : EntryAt s e a)
    (around : ℤ → Byte) (hsize : (fileBytes s).length < 2 ^ 31) :
    (⟨fileBytes s, around⟩ : Mapping).bytes a.offset.toNat a.length.toNat = e.valText := by
  obtain ⟨o, ho, hle, hvalue⟩ := h.value
  have hlen := fileBytes_length s
  have hoNat : a.offset.toNat = o := by
    rw [ho, UInt32.toNat_ofNat']
    omega
  have hlenNat : a.length.toNat = e.valText.length := by
    rw [h.length, UInt32.toNat_ofNat']
    omega
  rw [hoNat, hlenNat, mapping_bytes (show o + _ ≤ (fileBytes s).length by omega)]
  show ((fileBytes s).drop o).take _ = _
  unfold fileBytes
  rw [List.append_assoc, List.drop_append_of_le_length (by omega),
    List.take_append_of_le_length (by rw [List.length_drop]; omega)]
  exact hvalue

/-- What a translation finds in the archive of a state. -/
theorem translate_file {entries : List PoEntry} {s : PoState} (h : Written entries s)
    (hne : s.array ≠ []) (hsize : (fileBytes s).length < 2 ^ 31) (around : ℤ → Byte)
    (key : List Byte) {rounds : ℕ} (hrounds : s.array.length < rounds) :
    let result := lmoTranslate rounds (some (lmoLoadCatalog [⟨fileBytes s, around⟩])) key
    (result = some (-1, []) ∧ ∀ e ∈ stored entries, sfhHash e.keyText ≠ lmoCanonHash key) ∨
      ∃ e ∈ stored entries, sfhHash e.keyText = lmoCanonHash key ∧
        result = some (0, e.valText) := by
  obtain ⟨ar, hopen, hmmap, hindex, hlength⟩ := lmoOpen_file around h.offset hsize
  have hload : lmoLoadCatalog [⟨fileBytes s, around⟩] = [ar] := by
    unfold lmoLoadCatalog
    rw [List.foldl_cons, hopen]
    rfl
  have hlen := fileBytes_length s
  obtain ⟨hindexed, hentries⟩ := index_mem h
  rw [hload]
  rcases lmoFindEntry_file hmmap hindex hlength hne (by omega) (lmoCanonHash key) hrounds with
    ⟨hfind, hnone⟩ | ⟨m, a, hfind, ha, hkey, hoffset, hlen'⟩
  · refine Or.inl ⟨?_, fun e he heq => ?_⟩
    · show translateIn rounds (lmoCanonHash key) [ar] = _
      rw [translateIn, hfind]
      rfl
    · obtain ⟨a, ha, hat⟩ := hindexed e he
      exact hnone a ha (hat.keyId.trans heq)
  · obtain ⟨e, he, hat⟩ := hentries a ha
    refine Or.inr ⟨e, he, hat.keyId.symm.trans hkey, ?_⟩
    show translateIn rounds (lmoCanonHash key) [ar] = _
    rw [translateIn, hfind]
    show some ((0 : ℤ), ar.mmap.bytes (ar.offset m.toNat).toNat (ar.valLength m.toNat).toNat) = _
    rw [hoffset, hlen', hmmap, entry_bytes hat around hsize]

/-- The catalog that is loaded from what the converter leaves. -/
def loaded (around : ℤ → Byte) : Except Stop (Option (List Byte)) → Option (List LmoArchive)
  | .ok (some file) => some (lmoLoadCatalog [⟨file, around⟩])
  | .ok none => some (lmoLoadCatalog [])
  | .error _ => none

/-- The key of an entry translates to its value, or is not found if the two hash equal. -/
def Answers (active : Option (List LmoArchive)) (e : PoEntry) : Prop :=
  ∃ n, ∀ rounds, n ≤ rounds →
    lmoTranslate rounds active e.keyText = some (if e.Skipped then (-1, []) else (0, e.valText))

/-- The squeezed key has the hash of the key of an entry with the same value; for an
entry that is left out, it has the hash of no other. -/
def KeyFound (entries : List PoEntry) (e : PoEntry) : Prop :=
  if e.Skipped then ∀ a ∈ stored entries, sfhHash a.keyText ≠ lmoCanonHash e.keyText
  else ∃ a ∈ stored entries, sfhHash a.keyText = lmoCanonHash e.keyText ∧ a.valText = e.valText

/-- What a hash stands for. -/
def answer (entries : List PoEntry) (hash : UInt32) : ℤ × List Byte :=
  match (stored entries).find? fun e => sfhHash e.keyText == hash with
  | some e => (0, e.valText)
  | none => (-1, [])

theorem mem_stored {entries : List PoEntry} {e : PoEntry} :
    e ∈ stored entries ↔ e ∈ entries ∧ ¬e.Skipped := by
  unfold stored
  rw [List.mem_filter]
  simp

theorem PoText.entry_inj (po : PoText) {a b : PoEntry} (ha : a ∈ po.entries) (hb : b ∈ po.entries)
    (h : sfhHash a.keyText = sfhHash b.keyText) : a = b := by
  have hnodup : (po.entries.map fun e => sfhHash e.keyText).Nodup :=
    List.pairwise_map.mpr po.distinct
  exact List.inj_on_of_nodup_map hnodup ha hb h

theorem answer_none {entries : List PoEntry} {hash : UInt32}
    (h : ∀ e ∈ stored entries, sfhHash e.keyText ≠ hash) : answer entries hash = (-1, []) := by
  unfold answer
  rw [List.find?_eq_none.mpr fun e he => by simpa using h e he]

theorem PoText.answer_some (po : PoText) {e : PoEntry} (he : e ∈ stored po.entries) {hash : UInt32}
    (h : sfhHash e.keyText = hash) : answer po.entries hash = (0, e.valText) := by
  unfold answer
  cases hfind : (stored po.entries).find? fun e => sfhHash e.keyText == hash with
  | none => exact absurd h (by simpa using List.find?_eq_none.mp hfind e he)
  | some a =>
    have ha := List.mem_of_find?_eq_some hfind
    have hkey : sfhHash a.keyText = hash := by simpa using List.find?_some hfind
    rw [po.entry_inj (mem_stored.mp ha).1 (mem_stored.mp he).1 (hkey.trans h.symm)]

/-- Something is written for every entry that is not left out. -/
theorem Written.offset_pos {po : PoText} {s : PoState} (h : Written po.entries s) :
    0 < s.offset ↔ s.array ≠ [] := by
  have hlen := h.index.length_eq
  rw [h.offset, h.size]
  constructor
  · rintro hpos hnil
    rw [hnil, List.length_nil, List.length_eq_zero_iff] at hlen
    rw [hlen] at hpos
    exact absurd hpos (by simp)
  · intro hne
    cases hstored : stored po.entries with
    | nil =>
      rw [hstored, List.length_nil] at hlen
      exact absurd (List.length_eq_zero_iff.mp hlen.symm) hne
    | cons e rest =>
      have he : e ∈ stored po.entries := hstored ▸ List.mem_cons_self
      have hval := List.length_pos_iff.mpr (po.val e (mem_stored.mp he).1).1
      have hle := le_padded e.valText.length
      rw [List.map_cons, List.sum_cons]
      omega

theorem Written.file_size {po : PoText} (hfits : po.Fits) {s : PoState}
    (h : Written po.entries s) : (fileBytes s).length < 2 ^ 31 := by
  have hsize := hfits.size
  rw [← h.size, h.index.length_eq] at hsize
  rw [fileBytes_length]
  exact hsize

/-- Every key is answered by what the hash of its squeezed text stands for. -/
theorem translate_po (po : PoText) (h : po.Fits) (stack : Mem) (around : ℤ → Byte)
    (key : List Byte) :
    ∃ n, ∀ rounds, n ≤ rounds → lmoTranslate rounds (loaded around (po2lmo stack po.bytes)) key =
      some (answer po.entries (lmoCanonHash key)) := by
  obtain ⟨s, hscan, hwritten⟩ := scanAll_po po h stack
  have hpo : po2lmo stack po.bytes = .ok (if 0 < s.offset then some (fileBytes s) else none) := by
    unfold po2lmo
    rw [hscan]
    rfl
  refine ⟨s.array.length + 1, fun rounds hrounds => ?_⟩
  rw [hpo]
  by_cases hpos : 0 < s.offset
  · rw [if_pos hpos]
    rcases translate_file hwritten (hwritten.offset_pos.mp hpos) (hwritten.file_size h) around key
      (Nat.lt_of_succ_le hrounds) with ⟨hresult, hnone⟩ | ⟨e, he, hkey, hresult⟩
    · rw [answer_none hnone]
      exact hresult
    · rw [po.answer_some he hkey]
      exact hresult
  · rw [if_neg hpos]
    have hempty : s.array = [] := by
      by_contra hne
      exact hpos (hwritten.offset_pos.mpr hne)
    have hstored : stored po.entries = [] := by
      have hlen := hwritten.index.length_eq
      rw [hempty, List.length_nil] at hlen
      exact List.length_eq_zero_iff.mp hlen
    rw [answer_none fun _ he => absurd (hstored ▸ he) List.not_mem_nil]
    rfl

theorem answers_iff (po : PoText) (h : po.Fits) (stack : Mem) (around : ℤ → Byte)
    (e : PoEntry) : Answers (loaded around (po2lmo stack po.bytes)) e ↔ KeyFound po.entries e := by
  obtain ⟨n, htranslate⟩ := translate_po po h stack around e.keyText
  have hanswers : Answers (loaded around (po2lmo stack po.bytes)) e ↔
      answer po.entries (lmoCanonHash e.keyText) =
        if e.Skipped then (-1, []) else (0, e.valText) := by
    constructor
    · rintro ⟨n', hresult⟩
      have hboth := (htranslate (max n n') (le_max_left _ _)).symm.trans
        (hresult (max n n') (le_max_right _ _))
      exact Option.some.inj hboth
    · intro heq
      exact ⟨n, fun rounds hrounds => (htranslate rounds hrounds).trans (congrArg some heq)⟩
  rw [hanswers]
  unfold KeyFound
  by_cases hfound : ∃ a ∈ stored po.entries, sfhHash a.keyText = lmoCanonHash e.keyText
  · obtain ⟨a, ha, hkey⟩ := hfound
    rw [po.answer_some ha hkey]
    by_cases hskip : e.Skipped
    · rw [if_pos hskip, if_pos hskip]
      exact ⟨fun heq => absurd (congrArg Prod.fst heq) (by simp), fun hnone => absurd hkey (hnone a ha)⟩
    · rw [if_neg hskip, if_neg hskip]
      constructor
      · intro heq
        exact ⟨a, ha, hkey, congrArg Prod.snd heq⟩
      · rintro ⟨b, hb, hkey', hval⟩
        rw [po.entry_inj (mem_stored.mp ha).1 (mem_stored.mp hb).1 (hkey.trans hkey'.symm), hval]
  · have hnone : ∀ a ∈ stored po.entries, sfhHash a.keyText ≠ lmoCanonHash e.keyText :=
      fun a ha hkey => hfound ⟨a, ha, hkey⟩
    rw [answer_none hnone]
    by_cases hskip : e.Skipped
    · rw [if_pos hskip, if_pos hskip]
      exact ⟨fun _ => hnone, fun _ => rfl⟩
    · rw [if_neg hskip, if_neg hskip]
      refine ⟨fun heq => absurd (congrArg Prod.fst heq) (by simp), ?_⟩
      rintro ⟨a, ha, hkey, _⟩
      exact absurd hkey (hnone a ha)

/-- A literal without escapes. -/
def word (s : String) : Literal :=
  (ascii s).filterMap fun b =>
    if h : b ≠ 0 ∧ b ≠ newline ∧ b ≠ quote ∧ b ≠ backslash then some (.plain b h) else none

def oneEntry (key : String) (keyMore : List String) : PoEntry :=
  ⟨[], word key, keyMore.map word, word "value", [], 0⟩

def oneText (e : PoEntry) (hkey : e.keyText ≠ [] ∧ e.keyText.length < bufferSize)
    (hval : e.valText ≠ [] ∧ e.valText.length < bufferSize) : PoText where
  leading := 0
  entries := [e]
  key := by simpa using hkey
  val := by simpa using hval
  distinct := List.pairwise_singleton _ _

def plainText : PoText := oneText (oneEntry "key" []) (by decide) (by decide)

/-- The key ends in a blank. -/
def blankText : PoText := oneText (oneEntry "key " []) (by decide) (by decide)

/-- The key goes on in a second line. -/
def foldedText : PoText := oneText (oneEntry "key" ["more"]) (by decide) (by decide)

theorem plainText_fits : plainText.Fits := by
  refine ⟨by decide +kernel, ?_, by decide +kernel⟩
  intro e he hmore
  obtain rfl := List.mem_singleton.mp he
  exact absurd rfl hmore

end Iot7688.Po2lmo
