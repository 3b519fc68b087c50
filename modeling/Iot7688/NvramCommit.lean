import Iot7688.Nvram

/-!
Commits. The writer loop stores every tuple exactly when the strings of all tuples
and a double NUL fit behind the header; then the table that is built again from the
image has every variable. The length in the header is taken from the end of the
strings, with one byte too many when they end just before a multiple of four.
-/
namespace Iot7688.Nvram

open Lib

/-- All tuples, in the order of the writer loop, and their strings. -/
def tuples (h : Handle) : List Tuple := Buckets.entries hashSize h.nvramHash

def encode (ts : List Tuple) : List Byte := ts.flatMap tupleBytes

/-- Where the strings of all tuples end. -/
def endOfTuples (h : Handle) : ℕ := h.offset + headerSize + (encode (tuples h)).length

/-- The strings and a double NUL fit into the partition. -/
def Fits (h : Handle) : Prop := endOfTuples h + 2 ≤ h.length

instance (h : Handle) : Decidable (Fits h) := inferInstanceAs (Decidable (_ ≤ _))

/-- The table is sound, no name has a `=`, and every value passes the size test. -/
structure Wf (h : Handle) : Prop where
  table : Buckets.Wf bucket h.nvramHash
  names : ∀ i t, t ∈ h.nvramHash i → equals ∉ t.1.bytes
  values : ∀ i t, t ∈ h.nvramHash i → t.2.strlen + 1 ≤ h.length - h.offset

/-- A step that leaves the image alone. -/
structure SameImage (h h' : Handle) : Prop where
  mmap : h'.mmap = h.mmap
  length : h'.length = h.length
  offset : h'.offset = h.offset

theorem SameImage.trans {h h1 h2 : Handle} (h12 : SameImage h1 h2) (h01 : SameImage h h1) :
    SameImage h h2 :=
  ⟨h12.mmap.trans h01.mmap, h12.length.trans h01.length, h12.offset.trans h01.offset⟩

theorem bucket_lt (name : CString) : bucket name < hashSize := Nat.mod_lt _ (by decide)

theorem Wf.get_iff {h : Handle} (hwf : Wf h) {name value : CString} :
    nvramGet h name = some value ↔ (name, value) ∈ tuples h :=
  hwf.table.lookup_iff bucket_lt

theorem nvramSet_eq_some {h h' : Handle} {name value : CString}
    (hset : nvramSet h name value = some h') :
    value.strlen + 1 ≤ h.length - h.offset ∧
      h' = { h with nvramHash := Buckets.insert bucket h.nvramHash name value } := by
  unfold nvramSet at hset
  split at hset
  · exact absurd hset (by simp)
  · exact ⟨by omega, (Option.some.inj hset).symm⟩

theorem nvramSet_same {h h' : Handle} {name value : CString}
    (hset : nvramSet h name value = some h') : SameImage h h' := by
  obtain ⟨_, rfl⟩ := nvramSet_eq_some hset
  exact ⟨rfl, rfl, rfl⟩

/-- A successful set changes one variable. -/
theorem nvramGet_nvramSet {h h' : Handle} {name value : CString}
    (hset : nvramSet h name value = some h') (name' : CString) :
    nvramGet h' name' = if name' = name then some value else nvramGet h name' := by
  obtain ⟨_, rfl⟩ := nvramSet_eq_some hset
  exact Buckets.lookup_insert h.nvramHash name name' value

theorem nvramSet_wf {h h' : Handle} {name value : CString} (hwf : Wf h)
    (hname : equals ∉ name.bytes) (hset : nvramSet h name value = some h') : Wf h' := by
  obtain ⟨hfit, rfl⟩ := nvramSet_eq_some hset
  have hmem : ∀ i t, t ∈ Buckets.insert bucket h.nvramHash name value i →
      t = (name, value) ∨ t ∈ h.nvramHash i := by
    intro i t ht
    unfold Buckets.insert at ht
    by_cases hi : i = bucket name
    · rw [hi, Function.update_self] at ht
      rw [hi]
      exact Buckets.mem_put ht
    · rw [Function.update_of_ne hi] at ht
      exact Or.inr ht
  refine ⟨hwf.table.insert name value, ?_, ?_⟩
  · intro i t ht
    rcases hmem i t ht with rfl | hold
    · exact hname
    · exact hwf.names i t hold
  · intro i t ht
    rcases hmem i t ht with rfl | hold
    · exact hfit
    · exact hwf.values i t hold

theorem nvramUnset_same (h : Handle) (name : CString) : SameImage h (nvramUnset h name) := by
  unfold nvramUnset
  split
  · exact ⟨rfl, rfl, rfl⟩
  · exact ⟨rfl, rfl, rfl⟩

theorem nvramUnset_wf {h : Handle} (hwf : Wf h) (name : CString) : Wf (nvramUnset h name) := by
  unfold nvramUnset
  split
  · exact hwf
  · have hmem : ∀ i t, t ∈ Buckets.erase bucket h.nvramHash name i → t ∈ h.nvramHash i := by
      intro i t ht
      unfold Buckets.erase at ht
      by_cases hi : i = bucket name
      · rw [hi, Function.update_self] at ht
        rw [hi]
        exact Buckets.mem_remove ht
      · rwa [Function.update_of_ne hi] at ht
    exact ⟨hwf.table.erase name, fun i t ht => hwf.names i t (hmem i t ht),
      fun i t ht => hwf.values i t (hmem i t ht)⟩

theorem trySet_same (h : Handle) (name value : CString) : SameImage h (trySet h name value) := by
  unfold trySet
  cases hset : nvramSet h name value with
  | none => exact ⟨rfl, rfl, rfl⟩
  | some h' => exact nvramSet_same hset

theorem trySet_wf {h : Handle} {name : CString} (hwf : Wf h) (hname : equals ∉ name.bytes)
    (value : CString) : Wf (trySet h name value) := by
  unfold trySet
  cases hset : nvramSet h name value with
  | none => exact hwf
  | some h' => exact nvramSet_wf hwf hname hset

theorem nvramGet_trySet_of_ne (h : Handle) {name name' : CString} (value : CString)
    (hne : name' ≠ name) : nvramGet (trySet h name value) name' = nvramGet h name' := by
  unfold trySet
  cases hset : nvramSet h name value with
  | none => rfl
  | some h' => exact (nvramGet_nvramSet hset name').trans (if_neg hne)

theorem nvramGet_trySet_self {h : Handle} (name : CString) {value : CString}
    (hfit : value.strlen + 1 ≤ h.length - h.offset) :
    nvramGet (trySet h name value) name = some value := by
  have hset : nvramSet h name value =
      some { h with nvramHash := Buckets.insert bucket h.nvramHash name value } := by
    unfold nvramSet
    rw [if_neg (by omega)]
  unfold trySet
  rw [hset]
  exact (nvramGet_nvramSet hset name).trans (if_pos rfl)

/-- The special parameters only add variables. -/
theorem setMissing_keeps {h : Handle} (name : String) (value : CString) {name' value' : CString}
    (hget : nvramGet h name' = some value') :
    nvramGet (setMissing name value h) name' = some value' := by
  unfold setMissing
  split
  · exact hget
  · rename_i hmissing
    rw [nvramGet_trySet_of_ne, hget]
    rintro rfl
    simp [hget] at hmissing

theorem setMissing_same (name : String) (value : CString) (h : Handle) :
    SameImage h (setMissing name value h) := by
  unfold setMissing
  split
  · exact ⟨rfl, rfl, rfl⟩
  · exact trySet_same h _ value

theorem setMissing_wf {name : String} (hname : equals ∉ (CString.ofString name).bytes)
    (value : CString) {h : Handle} (hwf : Wf h) : Wf (setMissing name value h) := by
  unfold setMissing
  split
  · exact hwf
  · exact trySet_wf hwf hname value

/-- The loop of _nvram_rehash. -/
def setAll (h : Handle) (ts : List Tuple) : Handle := ts.foldl (fun h t => trySet h t.1 t.2) h

theorem setAll_same (h : Handle) (ts : List Tuple) : SameImage h (setAll h ts) := by
  induction ts generalizing h with
  | nil => exact ⟨rfl, rfl, rfl⟩
  | cons t ts ih => exact (ih (trySet h t.1 t.2)).trans (trySet_same h t.1 t.2)

theorem setAll_wf {h : Handle} (hwf : Wf h) (ts : List Tuple)
    (hnames : ∀ t ∈ ts, equals ∉ t.1.bytes) : Wf (setAll h ts) := by
  induction ts generalizing h with
  | nil => exact hwf
  | cons t ts ih =>
    exact ih (trySet_wf hwf (hnames t List.mem_cons_self) t.2)
      fun t' ht' => hnames t' (List.mem_cons_of_mem _ ht')

theorem setAll_get_of_notMem (h : Handle) {ts : List Tuple} {name : CString}
    (hname : name ∉ ts.map Prod.fst) : nvramGet (setAll h ts) name = nvramGet h name := by
  induction ts generalizing h with
  | nil => rfl
  | cons t ts ih =>
    rw [List.map_cons, List.mem_cons, not_or] at hname
    have hrest := ih (trySet h t.1 t.2) hname.2
    exact hrest.trans (nvramGet_trySet_of_ne h t.2 hname.1)

theorem setAll_get (h : Handle) {ts : List Tuple} (hnodup : (ts.map Prod.fst).Nodup)
    (hfit : ∀ t ∈ ts, t.2.strlen + 1 ≤ h.length - h.offset) {t : Tuple} (ht : t ∈ ts) :
    nvramGet (setAll h ts) t.1 = some t.2 := by
  induction ts generalizing h with
  | nil => exact absurd ht List.not_mem_nil
  | cons t' ts ih =>
    rw [List.map_cons, List.nodup_cons] at hnodup
    have hsame := trySet_same h t'.1 t'.2
    rcases List.mem_cons.mp ht with rfl | hrest
    · have hkept := setAll_get_of_notMem (trySet h t.1 t.2) hnodup.1
      exact hkept.trans (nvramGet_trySet_self t.1 (hfit t List.mem_cons_self))
    · refine ih (trySet h t'.1 t'.2) hnodup.2 ?_ hrest
      intro u hu
      rw [hsame.length, hsame.offset]
      exact hfit u (List.mem_cons_of_mem _ hu)

theorem wf_empty (h : Handle) : Wf { h with nvramHash := fun _ => [], nvramDead := [] } :=
  ⟨Buckets.wf_empty bucket, fun _ _ ht => absurd ht List.not_mem_nil,
    fun _ _ ht => absurd ht List.not_mem_nil⟩

/-- The special parameters at the end of _nvram_rehash. -/
def setSpecials (crcVerInit configRefresh configNcdl : ℕ) (h : Handle) : Handle :=
  setMissing "sdram_ncdl" (hexText 8 configNcdl)
    (setMissing "sdram_refresh" (hexText 4 (configRefresh / 2 ^ 16))
      (setMissing "sdram_config" (hexText 4 (configRefresh % 2 ^ 16))
        (setMissing "sdram_init" (hexText 4 (crcVerInit / 2 ^ 16)) h)))

theorem nvramRehash_eq (h : Handle) :
    nvramRehash h = (parseTuples ((dataArea h).length + 1) (dataArea h)).map fun ts =>
      setSpecials (getWord h.mmap (h.offset + crcVerInitField))
        (getWord h.mmap (h.offset + configRefreshField))
        (getWord h.mmap (h.offset + configNcdlField))
        (setAll { h with nvramHash := fun _ => [], nvramDead := [] } ts) := rfl

theorem setSpecials_same (a b c : ℕ) (h : Handle) : SameImage h (setSpecials a b c h) := by
  unfold setSpecials
  refine (setMissing_same _ _ _).trans ((setMissing_same _ _ _).trans ?_)
  exact (setMissing_same _ _ _).trans (setMissing_same _ _ _)

theorem setSpecials_wf (a b c : ℕ) {h : Handle} (hwf : Wf h) : Wf (setSpecials a b c h) := by
  unfold setSpecials
  refine setMissing_wf (by decide) _ (setMissing_wf (by decide) _ ?_)
  exact setMissing_wf (by decide) _ (setMissing_wf (by decide) _ hwf)

theorem setSpecials_keeps (a b c : ℕ) {h : Handle} {name value : CString}
    (hget : nvramGet h name = some value) : nvramGet (setSpecials a b c h) name = some value :=
  setMissing_keeps _ _ (setMissing_keeps _ _ (setMissing_keeps _ _ (setMissing_keeps _ _ hget)))

theorem parseTuples_names (fuel : ℕ) (area : List Byte) {ts : List Tuple}
    (h : parseTuples fuel area = some ts) : ∀ t ∈ ts, equals ∉ t.1.bytes := by
  induction fuel generalizing area ts with
  | zero => exact absurd h (by simp [parseTuples])
  | succ fuel ih =>
    cases area with
    | nil => exact absurd h (by simp [parseTuples])
    | cons b area =>
      rw [parseTuples] at h
      dsimp only at h
      split at h
      · obtain rfl := Option.some.inj h
        simp
      · split at h
        · exact absurd h (by simp)
        · split at h
          · obtain rfl := Option.some.inj h
            simp
          · split at h
            · exact absurd h (by simp)
            · rename_i rest' _
              obtain ⟨us, hus, rfl⟩ := Option.map_eq_some_iff.mp h
              intro t ht
              rcases List.mem_cons.mp ht with rfl | hrest
              · intro hmem
                have hname := (List.takeWhile_sublist _).subset hmem
                have hall := List.all_eq_true.mp List.all_takeWhile _ hname
                simp at hall
              · exact ih rest' hus t hrest

theorem nvramRehash_wf {h h' : Handle} (hrehash : nvramRehash h = some h') :
    Wf h' ∧ SameImage h h' := by
  rw [nvramRehash_eq] at hrehash
  obtain ⟨ts, hts, rfl⟩ := Option.map_eq_some_iff.mp hrehash
  constructor
  · exact setSpecials_wf _ _ _ (setAll_wf (wf_empty h) ts (parseTuples_names _ _ hts))
  · exact (setSpecials_same _ _ _ _).trans ((setAll_same _ ts).trans ⟨rfl, rfl, rfl⟩)

theorem CString.ofBytes_bytes (s : CString) : CString.ofBytes s.bytes = s := by
  have hall : ∀ b ∈ s.bytes, (b ≠ 0 : Bool) = true := by
    intro b hb
    have hne : b ≠ 0 := fun h0 => s.noNul (h0 ▸ hb)
    simpa using hne
  unfold CString.ofBytes
  obtain ⟨bytes, noNul⟩ := s
  congr
  exact List.takeWhile_eq_self_iff.mpr hall

/-- One tuple is parsed back. -/
theorem parseTuples_cons (fuel : ℕ) {t : Tuple} (hname : equals ∉ t.1.bytes) (rest : List Byte) :
    parseTuples (fuel + 1) (tupleBytes t ++ rest) =
      (parseTuples fuel rest).map fun ts => t :: ts := by
  have hlist : tupleBytes t ++ rest = t.1.bytes ++ equals :: (t.2.bytes ++ 0 :: rest) := by
    simp [tupleBytes]
  have hfirst : ∃ b area, t.1.bytes ++ equals :: (t.2.bytes ++ 0 :: rest) = b :: area ∧ b ≠ 0 := by
    cases hbytes : t.1.bytes with
    | nil => exact ⟨equals, _, rfl, by decide⟩
    | cons b bs =>
      refine ⟨b, _, rfl, ?_⟩
      rintro rfl
      exact t.1.noNul (by simp [hbytes])
  obtain ⟨b, area, harea, hb⟩ := hfirst
  have hnamePos : ∀ c ∈ t.1.bytes, (c ≠ 0 && c ≠ equals : Bool) = true := by
    intro c hc
    have h0 : c ≠ 0 := fun h => t.1.noNul (h ▸ hc)
    have heq : c ≠ equals := fun h => hname (h ▸ hc)
    simp [h0, heq]
  have hvaluePos : ∀ c ∈ t.2.bytes, (c ≠ 0 : Bool) = true := by
    intro c hc
    have h0 : c ≠ 0 := fun h => t.2.noNul (h ▸ hc)
    simp [h0]
  have hnameTake : (t.1.bytes ++ equals :: (t.2.bytes ++ 0 :: rest)).takeWhile
      (fun c => c ≠ 0 && c ≠ equals) = t.1.bytes := by
    rw [List.takeWhile_append_of_pos hnamePos, List.takeWhile_cons_of_neg (by decide),
      List.append_nil]
  have hvalueTake : (t.2.bytes ++ 0 :: rest).takeWhile (fun c => c ≠ 0) = t.2.bytes := by
    rw [List.takeWhile_append_of_pos hvaluePos, List.takeWhile_cons_of_neg (by decide),
      List.append_nil]
  rw [hlist, harea, parseTuples, if_neg hb, ← harea]
  dsimp only
  rw [hnameTake, List.drop_left]
  dsimp only
  rw [if_neg (not_not.mpr rfl), hvalueTake, List.drop_left]
  dsimp only
  rw [CString.ofBytes_bytes, CString.ofBytes_bytes]

/-- The strings that the writer loop stores are parsed back. -/
theorem parseTuples_encode (ts : List Tuple) (hnames : ∀ t ∈ ts, equals ∉ t.1.bytes)
    (rest : List Byte) {fuel : ℕ} (hfuel : ts.length < fuel) :
    parseTuples fuel (encode ts ++ 0 :: rest) = some ts := by
  induction ts generalizing fuel with
  | nil =>
    obtain ⟨fuel, rfl⟩ : ∃ k, fuel = k + 1 := ⟨fuel - 1, by simp at hfuel; omega⟩
    rfl
  | cons t ts ih =>
    obtain ⟨fuel, rfl⟩ : ∃ k, fuel = k + 1 := ⟨fuel - 1, by simp at hfuel; omega⟩
    have hsplit : encode (t :: ts) ++ 0 :: rest = tupleBytes t ++ (encode ts ++ 0 :: rest) := by
      simp [encode]
    rw [hsplit, parseTuples_cons fuel (hnames t List.mem_cons_self),
      ih (fun u hu => hnames u (List.mem_cons_of_mem _ hu)) (by simp at hfuel; omega)]
    rfl

theorem tupleBytes_length (t : Tuple) :
    (tupleBytes t).length = t.1.strlen + 1 + t.2.strlen + 1 := by
  simp only [tupleBytes, CString.strlen, List.length_append, List.length_cons, List.length_nil]
  omega

theorem length_le_encode (ts : List Tuple) : ts.length ≤ (encode ts).length := by
  induction ts with
  | nil => exact Nat.zero_le _
  | cons t ts ih =>
    have hlen := tupleBytes_length t
    simp only [encode, List.flatMap_cons, List.length_append, List.length_cons] at ih ⊢
    omega

theorem storeBytes_append (m : Mem) (p : ℕ) (a b : List Byte) :
    storeBytes (storeBytes m p a) (p + a.length) b = storeBytes m p (a ++ b) := by
  unfold storeBytes
  rw [List.length_append, ← Mem.copy_append]
  have hfirst : m.copy p a.length (fun i => (a ++ b).getD i 0) =
      m.copy p a.length (fun i => a.getD i 0) := by
    refine Mem.copy_congr m p a.length fun i hi => ?_
    rw [List.getD_append _ _ _ _ hi]
  rw [hfirst]
  refine Mem.copy_congr _ _ _ fun i _ => ?_
  rw [Mem.shift_apply, List.getD_append_right _ _ _ _ (Nat.le_add_right _ _),
    Nat.add_sub_cancel_left]

theorem storeBytes_inside (m : Mem) {p i : ℕ} {bytes : List Byte} (hi : i < bytes.length) :
    storeBytes m p bytes (p + i) = bytes[i] := by
  unfold storeBytes
  rw [Mem.copy_inside _ _ hi, List.getD_eq_getElem _ _ hi]

theorem storeBytes_outside (m : Mem) {p x : ℕ} {bytes : List Byte}
    (hx : x < p ∨ p + bytes.length ≤ x) : storeBytes m p bytes x = m x :=
  Mem.copy_outside _ _ hx

/-- A bucket whose strings fit is written whole. -/
theorem writeBucket_fits {endPos : ℕ} (ts : List Tuple) (s : ℕ × Mem)
    (hfit : s.1 + (encode ts).length ≤ endPos) :
    writeBucket endPos ts s = (s.1 + (encode ts).length, storeBytes s.2 s.1 (encode ts)) := by
  induction ts generalizing s with
  | nil =>
    unfold writeBucket storeBytes
    simp [encode]
  | cons t ts ih =>
    have hlen := tupleBytes_length t
    have hcons : encode (t :: ts) = tupleBytes t ++ encode ts := List.flatMap_cons
    rw [hcons, List.length_append] at hfit ⊢
    have hnext : s.1 + t.1.strlen + 1 + t.2.strlen + 1 = s.1 + (tupleBytes t).length := by omega
    rw [writeBucket, hnext, if_neg (by omega), ih _ (by dsimp only; omega), storeBytes_append]
    dsimp only
    rw [Nat.add_assoc]

theorem writeBuckets_fits {endPos : ℕ} (t : Buckets.Table CString CString) (is : List ℕ)
    (s : ℕ × Mem) (hfit : s.1 + (encode (is.flatMap t)).length ≤ endPos) :
    is.foldl (fun s i => writeBucket endPos (t i) s) s =
      (s.1 + (encode (is.flatMap t)).length, storeBytes s.2 s.1 (encode (is.flatMap t))) := by
  induction is generalizing s with
  | nil =>
    unfold storeBytes
    simp [encode]
  | cons i is ih =>
    have hcons : encode ((i :: is).flatMap t) = encode (t i) ++ encode (is.flatMap t) := by
      simp [encode, List.flatMap_append]
    rw [hcons, List.length_append] at hfit ⊢
    rw [List.foldl_cons, writeBucket_fits _ _ (by omega), ih _ (by dsimp only; omega),
      storeBytes_append]
    dsimp only
    rw [Nat.add_assoc]

theorem putWord_outside (m : Mem) (v : ℕ) {p x : ℕ} (hx : x < p ∨ p + 4 ≤ x) :
    putWord m p v x = m x := Mem.copy_outside _ _ hx

theorem getWord_congr {m m' : Mem} {p : ℕ} (h : ∀ x, p ≤ x → x < p + 4 → m x = m' x) :
    getWord m p = getWord m' p := by
  unfold getWord
  rw [h p (by omega) (by omega), h (p + 1) (by omega) (by omega), h (p + 2) (by omega) (by omega),
    h (p + 3) (by omega) (by omega)]

theorem getWord_putWord (m : Mem) (p : ℕ) {v : ℕ} (hv : v < 2 ^ 32) :
    getWord (putWord m p v) p = v := by
  have hbyte : ∀ i, i < 4 → (putWord m p v (p + i)).toNat = v / 2 ^ (8 * i) % 2 ^ 8 := by
    intro i hi
    unfold putWord
    rw [Mem.copy_inside _ _ hi]
    exact UInt8.toNat_ofNat'
  have h0 := hbyte 0 (by omega)
  have h1 := hbyte 1 (by omega)
  have h2 := hbyte 2 (by omega)
  have h3 := hbyte 3 (by omega)
  rw [Nat.add_zero] at h0
  unfold getWord
  rw [h0, h1, h2, h3]
  omega

/-- The image when the writer loop starts. -/
def clearedImage (h : Handle) : Mem :=
  let m := putWord h.mmap h.offset nvramMagic
  let m := putWord m (h.offset + crcVerInitField) (headerWords h).1
  let m := putWord m (h.offset + configRefreshField) (headerWords h).2.1
  let m := putWord m (h.offset + configNcdlField) (headerWords h).2.2
  m.fill (h.offset + headerSize) (h.length - (h.offset + headerSize)) 0xff

theorem writeData_eq (h : Handle) :
    writeData h =
      writeTuples (h.length - 2) h.nvramHash (h.offset + headerSize, clearedImage h) := rfl

theorem writeData_fits {h : Handle} (hfits : Fits h) :
    writeData h =
      (endOfTuples h, storeBytes (clearedImage h) (h.offset + headerSize) (encode (tuples h))) := by
  rw [writeData_eq]
  refine writeBuckets_fits h.nvramHash (List.range hashSize) _ ?_
  unfold Fits endOfTuples tuples Buckets.entries at hfits
  dsimp only
  omega

theorem clearedImage_before {h : Handle} {x : ℕ} (hx : x < h.offset) :
    clearedImage h x = h.mmap x := by
  unfold clearedImage Mem.fill
  rw [if_neg (by omega), putWord_outside _ _ (by omega), putWord_outside _ _ (by omega),
    putWord_outside _ _ (by omega), putWord_outside _ _ (by omega)]

theorem clearedImage_magic (h : Handle) : getWord (clearedImage h) h.offset = nvramMagic := by
  have hword := getWord_putWord h.mmap h.offset (show nvramMagic < 2 ^ 32 by decide)
  rw [← hword]
  refine getWord_congr fun x hx hlt => ?_
  unfold clearedImage Mem.fill headerSize crcVerInitField configRefreshField configNcdlField
  rw [if_neg (by omega), putWord_outside _ _ (by omega), putWord_outside _ _ (by omega),
    putWord_outside _ _ (by omega)]

theorem clearedImage_ff {h : Handle} {x : ℕ} (hx : h.offset + headerSize ≤ x)
    (hlt : x < h.length) : clearedImage h x = 0xff := by
  unfold clearedImage Mem.fill
  rw [if_pos (by omega)]

theorem clearedImage_after {h : Handle} {x : ℕ} (hx : h.offset + headerSize ≤ x)
    (hle : h.length ≤ x) : clearedImage h x = h.mmap x := by
  unfold clearedImage Mem.fill
  unfold headerSize at hx
  unfold headerSize crcVerInitField configRefreshField configNcdlField
  rw [if_neg (by omega), putWord_outside _ _ (by omega), putWord_outside _ _ (by omega),
    putWord_outside _ _ (by omega), putWord_outside _ _ (by omega)]

theorem endTuples_before {s : ℕ × Mem} {x : ℕ} (hx : x < s.1) : endTuples s x = s.2 x := by
  have hne : Function.update s.2 s.1 0 x = s.2 x := Function.update_of_ne (by omega) _ _
  unfold endTuples
  split
  · unfold Mem.fill
    rw [if_neg (by omega)]
    exact hne
  · exact hne

theorem endTuples_end (s : ℕ × Mem) : endTuples s s.1 = 0 := by
  have hself : Function.update s.2 s.1 0 s.1 = 0 := Function.update_self _ _ _
  unfold endTuples
  split
  · unfold Mem.fill
    rw [if_neg (by omega)]
    exact hself
  · exact hself

/-- The padding reaches to the next multiple of four. -/
theorem endTuples_pad {s : ℕ × Mem} {x : ℕ} (hx : s.1 < x) (hlt : x < (s.1 + 4) / 4 * 4) :
    endTuples s x = 0 := by
  unfold endTuples
  rw [if_pos (by omega)]
  unfold Mem.fill
  rw [if_pos (by omega)]

theorem endTuples_after {s : ℕ × Mem} {x : ℕ} (hx : s.1 < x) (hle : (s.1 + 4) / 4 * 4 ≤ x) :
    endTuples s x = s.2 x := by
  have hne : Function.update s.2 s.1 0 x = s.2 x := Function.update_of_ne (by omega) _ _
  unfold endTuples
  split
  · unfold Mem.fill
    rw [if_neg (by omega)]
    exact hne
  · exact hne

/-- The CRC and the length only change the header. -/
theorem commitImage_data {h : Handle} {x : ℕ} (hx : h.offset + headerSize ≤ x) :
    commitImage h x = endTuples (writeData h) x := by
  unfold headerSize at hx
  unfold commitImage
  rw [putWord_outside _ _ (by unfold crcVerInitField; omega),
    putWord_outside _ _ (by unfold lenField; omega)]

theorem commitImage_head {h : Handle} {x : ℕ} (hx : x < h.offset + lenField) :
    commitImage h x = endTuples (writeData h) x := by
  unfold commitImage
  rw [putWord_outside _ _ (by unfold lenField at hx; unfold crcVerInitField; omega),
    putWord_outside _ _ (Or.inl hx)]

theorem commitImage_len {h : Handle} (hlen : newLength h (writeData h).1 < 2 ^ 32) :
    getWord (commitImage h) (h.offset + lenField) = newLength h (writeData h).1 := by
  have hword := getWord_putWord (endTuples (writeData h)) (h.offset + lenField) hlen
  rw [← hword]
  refine getWord_congr fun x hx hlt => ?_
  unfold lenField at hx hlt
  unfold commitImage
  rw [putWord_outside _ _ (by unfold crcVerInitField; omega)]

/-- The handle with the image of its commit. -/
def committed (h : Handle) : Handle := { h with mmap := commitImage h }

theorem dataArea_committed {h : Handle} (hfits : Fits h) :
    ∃ rest, dataArea (committed h) = encode (tuples h) ++ 0 :: rest := by
  have hend := hfits
  unfold Fits endOfTuples at hend
  set k := (encode (tuples h)).length with hk
  set start := h.offset + headerSize with hstart
  obtain ⟨m, hcount⟩ : ∃ m, h.length - start = k + (1 + m) := ⟨h.length - start - k - 1, by omega⟩
  have hbytes : (List.range k).map (fun i => commitImage h (start + i)) = encode (tuples h) := by
    refine List.ext_getElem (by simp [hk]) fun i hi hlt => ?_
    rw [List.getElem_map, List.getElem_range, commitImage_data (by omega), writeData_fits hfits,
      endTuples_before (by unfold endOfTuples; omega)]
    exact storeBytes_inside _ hlt
  have hnul : commitImage h (start + k) = 0 := by
    rw [commitImage_data (by omega), writeData_fits hfits]
    exact endTuples_end _
  refine ⟨(List.range m).map fun i => commitImage h (start + (k + (1 + i))), ?_⟩
  show (List.range (h.length - start)).map (fun i => commitImage h (start + i)) = _
  rw [hcount, List.range_add, List.range_add, List.map_append, hbytes, List.map_append,
    List.map_append, List.map_map, List.map_map]
  refine congrArg (encode (tuples h) ++ ·) ?_
  show commitImage h (start + k) :: ((List.range m).map (1 + ·)).map _ = _
  rw [hnul, List.map_map]
  rfl

/-- The table built from the image of a commit has every variable. -/
theorem rehash_committed {h g : Handle} (hwf : Wf h) (hfits : Fits h)
    (hsame : SameImage (committed h) g) :
    ∃ g', nvramRehash g = some g' ∧ SameImage g g' ∧
      ∀ name value, nvramGet h name = some value → nvramGet g' name = some value := by
  have harea : dataArea g = dataArea (committed h) := by
    unfold dataArea
    rw [hsame.mmap, hsame.length, hsame.offset]
  obtain ⟨rest, hrest⟩ := dataArea_committed hfits
  have hmem : ∀ t ∈ tuples h, ∃ i, t ∈ h.nvramHash i := by
    intro t ht
    obtain ⟨i, _, hi⟩ := List.mem_flatMap.mp ht
    exact ⟨i, hi⟩
  have hnames : ∀ t ∈ tuples h, equals ∉ t.1.bytes := by
    intro t ht
    obtain ⟨i, hi⟩ := hmem t ht
    exact hwf.names i t hi
  have hparse : parseTuples ((dataArea g).length + 1) (dataArea g) = some (tuples h) := by
    rw [harea, hrest]
    refine parseTuples_encode (tuples h) hnames rest ?_
    have hle := length_le_encode (tuples h)
    simp only [List.length_append, List.length_cons]
    omega
  refine ⟨_, by rw [nvramRehash_eq, hparse]; rfl, ?_, ?_⟩
  · exact (setSpecials_same _ _ _ _).trans ((setAll_same _ _).trans ⟨rfl, rfl, rfl⟩)
  · intro name value hget
    refine setSpecials_keeps _ _ _ ?_
    have hnodup : ((tuples h).map Prod.fst).Nodup := hwf.table.nodup_entries hashSize
    refine setAll_get _ hnodup ?_ (hwf.get_iff.mp hget)
    intro t ht
    obtain ⟨i, hi⟩ := hmem t ht
    show t.2.strlen + 1 ≤ g.length - g.offset
    rw [hsame.length, hsame.offset]
    exact hwf.values i t hi

theorem commit_fits {h : Handle} (hwf : Wf h) (hfits : Fits h) :
    ∃ h', nvramCommit h = some (0, h') ∧ SameImage (committed h) h' ∧
      ∀ name value, nvramGet h name = some value → nvramGet h' name = some value := by
  obtain ⟨h', hrehash, hsame, hget⟩ := rehash_committed hwf hfits ⟨rfl, rfl, rfl⟩
  refine ⟨h', ?_, hsame, hget⟩
  have hroom := hfits
  unfold Fits endOfTuples at hroom
  unfold nvramCommit
  rw [if_neg (by omega)]
  show (nvramRehash (committed h)).map _ = _
  rw [hrehash]
  rfl

/-- nvram_commit never reports a failure. -/
theorem commit_ret {h h' : Handle} {ret : Int} (hcommit : nvramCommit h = some (ret, h')) :
    ret = 0 ∧ nvramRehash (committed h) = some h' := by
  unfold nvramCommit at hcommit
  split at hcommit
  · exact absurd hcommit (by simp)
  · obtain ⟨g, hg, heq⟩ := Option.map_eq_some_iff.mp hcommit
    rw [Prod.mk.injEq] at heq
    exact ⟨heq.1.symm, heq.2 ▸ hg⟩

/-- Handles of nvram_open after any calls, with names that have no `=`. -/
inductive Run : Handle → Prop
  | open (partSize : ℕ) (mmap : Mem) (rdonly : Bool) (h : Handle) (hsize : partSize < 2 ^ 32)
      (hopen : nvramOpen partSize mmap rdonly = some h) : Run h
  | set (h h' : Handle) (name value : CString) (hrun : Run h) (hname : equals ∉ name.bytes)
      (hset : nvramSet h name value = some h') : Run h'
  | unset (h : Handle) (name : CString) (hrun : Run h) : Run (nvramUnset h name)
  | commit (h h' : Handle) (ret : Int) (hrun : Run h) (hcommit : nvramCommit h = some (ret, h')) :
      Run h'

/-- A handle found by nvram_open: the magic word at its offset is the first one. -/
structure Located (h : Handle) : Prop where
  aligned : h.offset % 4 = 0
  searched : h.offset / 4 < searchCount h.length
  magic : getWord h.mmap h.offset = nvramMagic
  first : ∀ i, i < h.offset / 4 → getWord h.mmap (4 * i) ≠ nvramMagic

theorem nvramOpen_eq_some {partSize : ℕ} {mmap : Mem} {rdonly : Bool} {h : Handle}
    (hopen : nvramOpen partSize mmap rdonly = some h) :
    ∃ g : Handle, g.length = partSize ∧ g.mmap = mmap ∧ Located g ∧ nvramRehash g = some h ∧
      (rdonly = true ∨ getWord g.mmap (g.offset + lenField) < g.length - g.offset) := by
  unfold nvramOpen at hopen
  split at hopen
  · exact absurd hopen (by simp)
  · rename_i i hfind
    rw [List.find?_range_eq_some] at hfind
    obtain ⟨hmagic, hmem, hfirst⟩ := hfind
    have hword : getWord mmap (4 * i) = nvramMagic := by simpa using hmagic
    have hdiv : 4 * i / 4 = i := by omega
    dsimp only at hopen
    split at hopen
    · rename_i hlen
      refine ⟨⟨mmap, partSize, 4 * i, fun _ => [], []⟩, rfl, rfl, ⟨?_, ?_, hword, ?_⟩, hopen,
        hlen.2⟩
      · exact Nat.mul_mod_right 4 i
      · show 4 * i / 4 < searchCount partSize
        rw [hdiv]
        exact List.mem_range.mp hmem
      · intro j hj
        have hji : j < i := lt_of_lt_of_eq hj hdiv
        simpa using hfirst j hji
    · exact absurd hopen (by simp)

theorem run_wf {h : Handle} (hrun : Run h) : Wf h := by
  induction hrun with
  | «open» partSize mmap rdonly h _ hopen =>
    obtain ⟨g, _, _, _, hrehash, _⟩ := nvramOpen_eq_some hopen
    exact (nvramRehash_wf hrehash).1
  | set h h' name value _ hname hset ih => exact nvramSet_wf ih hname hset
  | unset h name _ ih => exact nvramUnset_wf ih name
  | commit h h' ret _ hcommit _ => exact (nvramRehash_wf (commit_ret hcommit).2).1

/-- What a commit owes to the variables: a commit that returns 0 keeps them all,
and variables that do not fit make it fail with the old image in place. -/
structure CommitKeeps (h : Handle) : Prop where
  kept : ∀ h', nvramCommit h = some (0, h') →
    ∀ name value, nvramGet h name = some value → nvramGet h' name = some value
  refused : ¬Fits h → ∃ ret h', nvramCommit h = some (ret, h') ∧ ret ≠ 0 ∧ h'.mmap = h.mmap

/-- It does so exactly when the variables fit, and then it returns 0. -/
theorem commit_keeps_iff {h : Handle} (hrun : Run h) :
    (CommitKeeps h ↔ Fits h) ∧ (Fits h → ∃ h', nvramCommit h = some (0, h')) := by
  have hwf := run_wf hrun
  refine ⟨⟨fun hkeeps => ?_, fun hfits => ⟨?_, fun hno => absurd hfits hno⟩⟩, fun hfits => ?_⟩
  · by_contra hno
    obtain ⟨ret, h', hcommit, hne, _⟩ := hkeeps.refused hno
    exact hne (commit_ret hcommit).1
  · intro h' hcommit
    obtain ⟨g, hg, _, hget⟩ := commit_fits hwf hfits
    rw [hg] at hcommit
    obtain rfl := (Prod.mk.inj (Option.some.inj hcommit)).2
    exact hget
  · obtain ⟨h', hcommit, _⟩ := commit_fits hwf hfits
    exact ⟨h', hcommit⟩

/-- A partition with an empty data area. -/
def blankImage : Mem := putWord (putWord (fun _ => 0) 0 nvramMagic) lenField headerSize

def opened (partSize : ℕ) : Handle :=
  (nvramOpen partSize blankImage false).getD ⟨blankImage, partSize, 0, fun _ => [], []⟩

theorem opened_run {partSize : ℕ} (hsize : partSize < 2 ^ 32)
    (hopen : (nvramOpen partSize blankImage false).isSome) : Run (opened partSize) := by
  obtain ⟨h, hh⟩ := Option.isSome_iff_exists.mp hopen
  refine Run.open partSize blankImage false _ hsize ?_
  unfold opened
  rw [hh]
  rfl

/-- lan_ip set to sixty letters after nvram_open of a partition of 160 bytes. -/
def overfull : Handle :=
  trySet (opened 160) (CString.ofString "lan_ip") (CString.ofBytes (List.replicate 60 0x78))

theorem commit_keeps_iff_blank : CommitKeeps (opened 160) :=
  (commit_keeps_iff (opened_run (by decide) (by decide +kernel))).1.mpr (by decide +kernel)

/-- The commit of a variable that does not fit returns 0 and loses it. -/
theorem overfull_commit_loses :
    ¬CommitKeeps overfull ∧
      nvramSet (opened 160) (CString.ofString "lan_ip")
        (CString.ofBytes (List.replicate 60 0x78)) ≠ none ∧
      (nvramGet overfull (CString.ofString "lan_ip")).isSome = true ∧
      (nvramCommit overfull).map (fun r => (r.1, nvramGet r.2 (CString.ofString "lan_ip"))) =
        some (0, none) := by
  have hset : (nvramSet (opened 160) (CString.ofString "lan_ip")
      (CString.ofBytes (List.replicate 60 0x78))).isSome = true := by decide +kernel
  have hget : (nvramGet overfull (CString.ofString "lan_ip")).isSome = true := by decide +kernel
  have hlost : (nvramCommit overfull).map
      (fun r => (r.1, nvramGet r.2 (CString.ofString "lan_ip"))) = some (0, none) := by
    decide +kernel
  refine ⟨fun hkeeps => ?_, Option.isSome_iff_ne_none.mp hset, hget, hlost⟩
  obtain ⟨r, hcommit, hr⟩ := Option.map_eq_some_iff.mp hlost
  obtain ⟨hret, hnone⟩ := Prod.mk.inj hr
  obtain ⟨value, hvalue⟩ := Option.isSome_iff_exists.mp hget
  have hkept := hkeeps.kept r.2 (hcommit.trans (by rw [← hret])) _ value hvalue
  rw [hnone] at hkept
  exact absurd hkept (by simp)

end Iot7688.Nvram
