import Iot7688.NvramCommit

/-!
Opening what a commit left, and its CRC. The length in the header counts the NUL behind the
strings and one byte more, rounded up; nvram_open wants it to be smaller than the partition.
nvram_commit hashes the last bytes of a header of its own and then the data, the info command
the stored header and the data in one piece, from behind the CRC.
-/
namespace Iot7688.Nvram

open Lib

/-- What the writer loop does to the position and the memory, stored whole or not. -/
structure Grown (endPos : ℕ) (s s' : ℕ × Mem) : Prop where
  le : s.1 ≤ s'.1
  bound : s'.1 ≤ max s.1 endPos
  frame : ∀ x, x < s.1 → s'.2 x = s.2 x

theorem Grown.refl (endPos : ℕ) (s : ℕ × Mem) : Grown endPos s s :=
  ⟨le_refl _, le_max_left _ _, fun _ _ => rfl⟩

theorem Grown.trans {endPos : ℕ} {s s1 s2 : ℕ × Mem} (h : Grown endPos s s1)
    (h' : Grown endPos s1 s2) : Grown endPos s s2 := by
  refine ⟨h.le.trans h'.le, ?_, fun x hx => ?_⟩
  · exact h'.bound.trans (max_le h.bound (le_max_right _ _))
  · exact (h'.frame x (lt_of_lt_of_le hx h.le)).trans (h.frame x hx)

theorem writeBucket_grown (endPos : ℕ) (ts : List Tuple) (s : ℕ × Mem) :
    Grown endPos s (writeBucket endPos ts s) := by
  induction ts generalizing s with
  | nil => exact Grown.refl endPos s
  | cons t ts ih =>
    unfold writeBucket
    split
    · exact Grown.refl endPos s
    · refine Grown.trans ⟨?_, ?_, ?_⟩ (ih _)
      · dsimp only
        omega
      · dsimp only
        omega
      · intro x hx
        exact storeBytes_outside _ (Or.inl hx)

theorem writeTuples_grown (endPos : ℕ) (t : Buckets.Table CString CString) (s : ℕ × Mem) :
    Grown endPos s (writeTuples endPos t s) := by
  have hbuckets : ∀ (is : List ℕ) (s : ℕ × Mem),
      Grown endPos s (is.foldl (fun s i => writeBucket endPos (t i) s) s) := by
    intro is
    induction is with
    | nil => exact Grown.refl endPos
    | cons i is ih => exact fun s => (writeBucket_grown endPos (t i) s).trans (ih _)
  exact hbuckets (List.range hashSize) s

theorem commitImage_before_data {h : Handle} {x : ℕ} (hx : x < h.offset + lenField) :
    commitImage h x = clearedImage h x := by
  have hgrown := writeTuples_grown (h.length - 2) h.nvramHash
    (h.offset + headerSize, clearedImage h)
  rw [← writeData_eq] at hgrown
  have hlt : x < h.offset + headerSize := by
    unfold lenField at hx
    unfold headerSize
    omega
  rw [commitImage_head hx, endTuples_before (lt_of_lt_of_le hlt hgrown.le)]
  exact hgrown.frame x hlt

theorem Located.of_same {h h' : Handle} (hloc : Located h) (hsame : SameImage h h') :
    Located h' := by
  obtain ⟨hmmap, hlength, hoffset⟩ := hsame
  refine ⟨?_, ?_, ?_, ?_⟩
  · rw [hoffset]
    exact hloc.aligned
  · rw [hoffset, hlength]
    exact hloc.searched
  · rw [hoffset, hmmap]
    exact hloc.magic
  · rw [hoffset, hmmap]
    exact hloc.first

/-- A commit changes nothing before the header and keeps the magic word. -/
theorem Located.commit {h : Handle} (hloc : Located h) : Located (committed h) := by
  refine ⟨hloc.aligned, hloc.searched, ?_, ?_⟩
  · rw [← clearedImage_magic h]
    exact getWord_congr fun x _ hlt => commitImage_before_data hlt
  · intro i hi
    have hsame : getWord (committed h).mmap (4 * i) = getWord h.mmap (4 * i) := by
      have hi' : i < h.offset / 4 := hi
      refine getWord_congr fun x _ hlt => ?_
      have hx : x < h.offset := by omega
      exact (commitImage_before_data (Nat.lt_add_right _ hx)).trans (clearedImage_before hx)
    rw [hsame]
    exact hloc.first i hi

theorem run_located {h : Handle} (hrun : Run h) : Located h ∧ h.length < 2 ^ 32 := by
  induction hrun with
  | «open» partSize mmap rdonly h hsize hopen =>
    obtain ⟨g, hlength, _, hloc, hrehash, _⟩ := nvramOpen_eq_some hopen
    have hsame := (nvramRehash_wf hrehash).2
    refine ⟨hloc.of_same hsame, ?_⟩
    rw [hsame.length, hlength]
    exact hsize
  | set h h' name value _ _ hset ih =>
    have hsame := nvramSet_same hset
    exact ⟨ih.1.of_same hsame, hsame.length.symm ▸ ih.2⟩
  | unset h name _ ih =>
    have hsame := nvramUnset_same h name
    exact ⟨ih.1.of_same hsame, hsame.length.symm ▸ ih.2⟩
  | commit h h' ret _ hcommit ih =>
    have hsame := (nvramRehash_wf (commit_ret hcommit).2).2
    exact ⟨ih.1.commit.of_same hsame, hsame.length.symm ▸ ih.2⟩

/-- Opening a located image for writing. -/
theorem nvramOpen_located {g : Handle} (hloc : Located g)
    (hlen : getWord g.mmap (g.offset + lenField) < g.length - g.offset) :
    nvramOpen g.length g.mmap false =
      nvramRehash { g with nvramHash := fun _ => [], nvramDead := [] } := by
  have hoffset : 4 * (g.offset / 4) = g.offset := by
    have := hloc.aligned
    omega
  have hfind : (List.range (searchCount g.length)).find?
      (fun i => getWord g.mmap (4 * i) == nvramMagic) = some (g.offset / 4) := by
    rw [List.find?_range_eq_some]
    refine ⟨?_, List.mem_range.mpr hloc.searched, ?_⟩
    · rw [hoffset]
      simpa using hloc.magic
    · intro i hi
      simpa using hloc.first i hi
  unfold nvramOpen
  rw [hfind]
  dsimp only
  rw [hoffset, if_pos ⟨hloc.magic, Or.inr hlen⟩]

/-- The writer loop stores all tuples. -/
def StoredAll (h : Handle) : Prop := (writeData h).1 = endOfTuples h

instance (h : Handle) : Decidable (StoredAll h) := inferInstanceAs (Decidable (_ = _))

/-- The image of a commit: accepted by nvram_open for writing, with a data area that
ends in a double NUL, and nothing written outside of the partition. -/
structure CommitOpens (h h' : Handle) : Prop where
  accepted : ∃ g, nvramOpen h.length h'.mmap false = some g ∧ g.offset = h.offset
  doubleNul : h'.mmap (h.offset + getWord h'.mmap (h.offset + lenField) - 1) = 0 ∧
    h'.mmap (h.offset + getWord h'.mmap (h.offset + lenField) - 2) = 0
  inside : ∀ x, h.length ≤ x → h'.mmap x = h.mmap x

/-- Without room for the double NUL only an empty table is stored whole. -/
theorem endOfTuples_of_not_fits {h : Handle} (hstored : StoredAll h) (hno : ¬Fits h) :
    endOfTuples h = h.offset + headerSize := by
  have hgrown := writeTuples_grown (h.length - 2) h.nvramHash
    (h.offset + headerSize, clearedImage h)
  have hptr : (writeData h).1 = endOfTuples h := hstored
  have hle : h.offset + headerSize ≤ (writeData h).1 := hgrown.le
  have hbound : (writeData h).1 ≤ max (h.offset + headerSize) (h.length - 2) := hgrown.bound
  unfold Fits at hno
  omega

theorem newLength_eq {h : Handle} (hloc : Located h) (hptr : h.offset + headerSize ≤ endOfTuples h) :
    h.offset + newLength h (endOfTuples h) = (endOfTuples h + 5) / 4 * 4 := by
  have haligned := hloc.aligned
  unfold headerSize at hptr
  unfold newLength nvramRoundup
  omega

theorem commitImage_end {h : Handle} (hfits : Fits h) : commitImage h (endOfTuples h) = 0 := by
  have hptr : h.offset + headerSize ≤ endOfTuples h := Nat.le_add_right _ _
  rw [commitImage_data hptr, writeData_fits hfits]
  exact endTuples_end _

theorem commitImage_pad {h : Handle} (hfits : Fits h) {x : ℕ} (hx : endOfTuples h < x)
    (hlt : x < (endOfTuples h + 4) / 4 * 4) : commitImage h x = 0 := by
  have hptr : h.offset + headerSize ≤ endOfTuples h := Nat.le_add_right _ _
  rw [commitImage_data (by omega), writeData_fits hfits]
  exact endTuples_pad hx hlt

theorem commitImage_rest {h : Handle} (hfits : Fits h) {x : ℕ} (hx : endOfTuples h < x)
    (hle : (endOfTuples h + 4) / 4 * 4 ≤ x) : commitImage h x = clearedImage h x := by
  have hptr : h.offset + headerSize ≤ endOfTuples h := Nat.le_add_right _ _
  rw [commitImage_data (by omega), writeData_fits hfits, endTuples_after hx hle]
  exact storeBytes_outside _ (Or.inr (le_of_lt hx))

/-- A complete commit opens again exactly when the strings do not end just before a
multiple of four and six bytes are left behind them. -/
theorem commit_opens_iff {h : Handle} (hrun : Run h) (h4 : h.length % 4 = 0)
    (hstored : StoredAll h) :
    (∃ h', nvramCommit h = some (0, h') ∧ CommitOpens h h') ↔
      endOfTuples h % 4 ≠ 3 ∧ endOfTuples h + 6 ≤ h.length := by
  obtain ⟨hloc, hlength⟩ := run_located hrun
  have hptr : h.offset + headerSize ≤ endOfTuples h := Nat.le_add_right _ _
  have hnew := newLength_eq hloc hptr
  have hword : newLength h (endOfTuples h) < 2 ^ 32 →
      getWord (commitImage h) (h.offset + lenField) = newLength h (endOfTuples h) := by
    intro hlt
    rw [← show (writeData h).1 = endOfTuples h from hstored] at hlt ⊢
    exact commitImage_len hlt
  constructor
  · rintro ⟨h', hcommit, ⟨g, hopen, hoffset⟩, hnul, _⟩
    have hroom : h.offset + headerSize ≤ h.length := by
      by_contra hno
      unfold nvramCommit at hcommit
      rw [if_pos (by omega)] at hcommit
      exact absurd hcommit (by simp)
    have hsame := (nvramRehash_wf (commit_ret hcommit).2).2
    have hmmap : h'.mmap = commitImage h := hsame.mmap
    obtain ⟨g0, hg0, hg0mmap, _, hrehash, hlen⟩ := nvramOpen_eq_some hopen
    have hg0offset : g0.offset = h.offset := (nvramRehash_wf hrehash).2.offset.symm.trans hoffset
    have haccepted : getWord (commitImage h) (h.offset + lenField) < h.length - h.offset := by
      have hlt := hlen.resolve_left (by simp)
      rwa [hg0mmap, hmmap, hg0, hg0offset] at hlt
    unfold headerSize at hptr hroom
    have hfits : Fits h := by
      by_contra hno
      have hend := endOfTuples_of_not_fits hstored hno
      unfold Fits at hno
      unfold headerSize at hend
      rw [hword (by omega)] at haccepted
      omega
    have hfits' := hfits
    unfold Fits at hfits'
    have haligned := hloc.aligned
    rw [hword (by omega)] at haccepted
    refine ⟨fun hthree => ?_, by omega⟩
    -- the last byte of the data area was never written
    have hlast := hnul.1
    rw [hmmap, hword (by omega), commitImage_rest hfits (by omega) (by omega),
      clearedImage_ff (by unfold headerSize; omega) (by omega)] at hlast
    exact absurd hlast (by decide)
  · rintro ⟨hthree, hsix⟩
    have hfits : Fits h := by
      unfold Fits
      omega
    obtain ⟨h', hcommit, hsame, _⟩ := commit_fits (run_wf hrun) hfits
    have hmmap : h'.mmap = commitImage h := hsame.mmap
    have haligned := hloc.aligned
    have hlen := hword (by omega)
    refine ⟨h', hcommit, ?_, ?_, ?_⟩
    · have hopen := nvramOpen_located hloc.commit
        (show getWord (commitImage h) (h.offset + lenField) < h.length - h.offset by omega)
      obtain ⟨g, hrehash, hgsame, _⟩ := rehash_committed (run_wf hrun) hfits
        (show SameImage (committed h) { committed h with nvramHash := fun _ => [], nvramDead := [] }
          from ⟨rfl, rfl, rfl⟩)
      refine ⟨g, ?_, hgsame.offset⟩
      rw [hmmap]
      exact hopen.trans hrehash
    · rw [hmmap, hlen]
      have hnul : ∀ x, endOfTuples h ≤ x → x < (endOfTuples h + 4) / 4 * 4 →
          commitImage h x = 0 := by
        intro x hx hlt
        rcases Nat.eq_or_lt_of_le hx with rfl | hx
        · exact commitImage_end hfits
        · exact commitImage_pad hfits hx hlt
      exact ⟨hnul _ (by omega) (by omega), hnul _ (by omega) (by omega)⟩
    · intro x hx
      rw [hmmap, commitImage_rest hfits (by omega) (by omega),
        clearedImage_after (by omega) hx]

theorem commit_opens_iff_blank :
    ∃ h', nvramCommit (opened 160) = some (0, h') ∧ CommitOpens (opened 160) h' :=
  (commit_opens_iff (opened_run (by decide) (by decide +kernel)) (by decide +kernel)
    (by decide +kernel)).mpr ⟨by decide +kernel, by decide +kernel⟩

/-- One variable more in a partition of 160 bytes, with n letters. -/
def letters (n : ℕ) : Handle :=
  trySet (opened 160) (CString.ofString "a") (CString.ofBytes (List.replicate n 0x78))

/-- With 52 letters the image is not accepted any more; with three its data area
ends in erased bytes. -/
theorem commit_boundary_fails :
    StoredAll (letters 52) ∧ StoredAll (letters 3) ∧
      (¬∃ h', nvramCommit (letters 52) = some (0, h') ∧
        ∃ g, nvramOpen 160 h'.mmap false = some g ∧ g.offset = (letters 52).offset) ∧
      ¬∃ h', nvramCommit (letters 3) = some (0, h') ∧ CommitOpens (letters 3) h' := by
  have hfull : (nvramCommit (letters 52)).map (fun r => (nvramOpen 160 r.2.mmap false).isNone) =
      some true := by decide +kernel
  have hodd : (nvramCommit (letters 3)).map (fun r =>
      r.2.mmap ((letters 3).offset + getWord r.2.mmap ((letters 3).offset + lenField) - 1)) =
      some 0xff := by decide +kernel
  refine ⟨by decide +kernel, by decide +kernel, ?_, ?_⟩
  · rintro ⟨h', hcommit, g, hopen, _⟩
    rw [hcommit, Option.map_some, hopen] at hfull
    exact absurd hfull (by simp)
  · rintro ⟨h', hcommit, hopens⟩
    rw [hcommit, Option.map_some, hopens.doubleNul.1] at hodd
    exact absurd hodd (by decide)

/-- The header that nvram_commit hashes: zero apart from the last three words. -/
def tmpHeader (crcVerInit configRefresh configNcdl : ℕ) : Mem :=
  putWord (putWord (putWord (fun _ => 0) crcVerInitField crcVerInit) configRefreshField
    configRefresh) configNcdlField configNcdl

/-- The image of a commit before its CRC is stored. -/
def uncheckedImage (h : Handle) : Mem :=
  putWord (endTuples (writeData h)) (h.offset + lenField) (newLength h (writeData h).1)

/-- The CRC that nvram_commit stores. -/
def commitCrc (h : Handle) : Byte :=
  let m := uncheckedImage h
  let tmp := tmpHeader (getWord m (h.offset + crcVerInitField))
    (getWord m (h.offset + configRefreshField)) (getWord m (h.offset + configNcdlField))
  let crc := hndcrc8 (memBytes tmp nvramCrcStartPosition (headerSize - nvramCrcStartPosition)) 0xff
  hndcrc8 (memBytes m (h.offset + headerSize)
    ((getWord m (h.offset + lenField) + 2 ^ 32 - headerSize) % 2 ^ 32)) crc

/-- What do_info prints. -/
structure Info where
  magic : ℕ
  length : ℕ
  offset : ℕ
  crc8 : Byte
  calculated : Byte
  version : ℕ
  sdramInit : ℕ
  sdramConfig : ℕ
  sdramRefresh : ℕ
  ncdl : ℕ
  available : ℕ
deriving DecidableEq

def doInfo (h : Handle) : Info :=
  let word (field : ℕ) : ℕ := getWord h.mmap (h.offset + field)
  { magic := word 0
    length := word lenField
    offset := h.offset
    crc8 := (word crcVerInitField % 2 ^ 8).toUInt8
    calculated := hndcrc8 (memBytes h.mmap (h.offset + nvramCrcStartPosition)
      ((word lenField + 2 ^ 32 - nvramCrcStartPosition) % 2 ^ 32)) 0xff
    version := word crcVerInitField / 2 ^ 8 % 2 ^ 8
    sdramInit := word crcVerInitField / 2 ^ 16 % 2 ^ 16
    sdramConfig := word configRefreshField % 2 ^ 16
    sdramRefresh := word configRefreshField / 2 ^ 16 % 2 ^ 16
    ncdl := word configNcdlField
    available := (h.length + 2 * 2 ^ 32 - h.offset - word lenField) % 2 ^ 32 }

theorem hndcrc8_append (x y : List Byte) (c : Byte) :
    hndcrc8 (x ++ y) c = hndcrc8 y (hndcrc8 x c) := List.foldl_append

theorem memBytes_append (m : Mem) (p a b : ℕ) :
    memBytes m p (a + b) = memBytes m p a ++ memBytes m (p + a) b := by
  unfold memBytes
  rw [List.range_add, List.map_append, List.map_map]
  congr 1
  refine List.map_congr_left fun i _ => ?_
  rw [Function.comp_apply, Nat.add_assoc]

theorem memBytes_congr {m m' : Mem} {p q n : ℕ} (h : ∀ i, i < n → m (p + i) = m' (q + i)) :
    memBytes m p n = memBytes m' q n :=
  List.map_congr_left fun i hi => h i (List.mem_range.mp hi)

/-- Bytes of a word that was read at one place and written at another. -/
theorem putWord_getWord (m m' : Mem) (p q : ℕ) {i : ℕ} (hi : i < 4) :
    putWord m' q (getWord m p) (q + i) = m (p + i) := by
  have h0 := (m p).toNat_lt
  have h1 := (m (p + 1)).toNat_lt
  have h2 := (m (p + 2)).toNat_lt
  have h3 := (m (p + 3)).toNat_lt
  have hbyte : getWord m p / 2 ^ (8 * i) % 2 ^ 8 = (m (p + i)).toNat := by
    unfold getWord
    rcases (by omega : i = 0 ∨ i = 1 ∨ i = 2 ∨ i = 3) with rfl | rfl | rfl | rfl
    · simp only [Nat.add_zero, Nat.mul_zero]
      omega
    · omega
    · omega
    · omega
  unfold putWord
  rw [Mem.copy_inside _ _ hi]
  apply UInt8.toNat_inj.mp
  rw [← hbyte]
  exact UInt8.toNat_ofNat'

/-- Storing a byte in a word whose first byte is zero. -/
theorem putWord_or (m : Mem) (p : ℕ) (c : Byte) (hzero : m p = 0) :
    putWord m p (getWord m p ||| c.toNat) = Function.update m p c := by
  have hc := c.toNat_lt
  have hne {k : ℕ} (hk : 0 < k) : Function.update m p c (p + k) = m (p + k) :=
    Function.update_of_ne (by omega) _ _
  have hword : getWord m p ||| c.toNat = getWord (Function.update m p c) p := by
    have hlow : getWord m p = 2 ^ 8 * ((m (p + 1)).toNat + 2 ^ 8 * (m (p + 2)).toNat +
        2 ^ 16 * (m (p + 3)).toNat) := by
      unfold getWord
      rw [hzero, UInt8.toNat_zero]
      omega
    rw [hlow, ← Nat.two_pow_add_eq_or_of_lt hc]
    unfold getWord
    rw [Function.update_self, hne (by omega), hne (by omega), hne (by omega)]
    omega
  funext x
  rw [hword]
  by_cases hx : x < p ∨ p + 4 ≤ x
  · rw [putWord_outside _ _ hx, Function.update_of_ne (by omega)]
  · have hi : x = p + (x - p) := by omega
    rw [hi, putWord_getWord _ _ _ _ (by omega)]

theorem getWord_putWord_mod (m : Mem) (p v : ℕ) : getWord (putWord m p v) p = v % 2 ^ 32 := by
  rw [← getWord_putWord m p (Nat.mod_lt v (by decide))]
  refine getWord_congr fun x hx hlt => ?_
  have hi : x = p + (x - p) := by omega
  unfold putWord
  rw [hi, Mem.copy_inside _ _ (by omega), Mem.copy_inside _ _ (by omega)]
  apply UInt8.toNat_inj.mp
  rw [UInt8.toNat_ofNat', UInt8.toNat_ofNat']
  rcases (by omega : x - p = 0 ∨ x - p = 1 ∨ x - p = 2 ∨ x - p = 3) with h | h | h | h
  · rw [h]; omega
  · rw [h]; omega
  · rw [h]; omega
  · rw [h]; omega

/-- The writer loop leaves the header alone. -/
theorem uncheckedImage_header {h : Handle} {x : ℕ} (hx : h.offset + crcVerInitField ≤ x)
    (hlt : x < h.offset + headerSize) : uncheckedImage h x = clearedImage h x := by
  have hgrown := writeTuples_grown (h.length - 2) h.nvramHash
    (h.offset + headerSize, clearedImage h)
  rw [← writeData_eq] at hgrown
  unfold uncheckedImage
  rw [putWord_outside _ _ (by unfold crcVerInitField at hx; unfold lenField; omega),
    endTuples_before (lt_of_lt_of_le hlt hgrown.le)]
  exact hgrown.frame x hlt

/-- The place of the CRC is zero before it is stored. -/
theorem uncheckedImage_crc (h : Handle) : uncheckedImage h (h.offset + crcVerInitField) = 0 := by
  have hlow : (headerWords h).1 % 2 ^ 8 = 0 := by
    unfold headerWords nvramVersion
    split
    · omega
    · unfold sdramInit
      omega
  rw [uncheckedImage_header (le_refl _) (by unfold crcVerInitField headerSize; omega)]
  unfold clearedImage Mem.fill headerSize configRefreshField configNcdlField
  rw [if_neg (by unfold crcVerInitField; omega),
    putWord_outside _ _ (by unfold crcVerInitField; omega),
    putWord_outside _ _ (by unfold crcVerInitField; omega)]
  refine (Mem.copy_inside _ _ (show 0 < 4 by omega)).trans ?_
  apply UInt8.toNat_inj.mp
  rw [Nat.mul_zero, Nat.pow_zero, Nat.div_one]
  exact (UInt8.toNat_ofNat' (n := (headerWords h).1)).trans hlow

/-- The header of its own has the bytes of the header in the image. -/
theorem tmpHeader_bytes (m : Mem) (p : ℕ) {i : ℕ} (hi : crcVerInitField ≤ i) (hlt : i < headerSize) :
    tmpHeader (getWord m (p + crcVerInitField)) (getWord m (p + configRefreshField))
      (getWord m (p + configNcdlField)) i = m (p + i) := by
  unfold crcVerInitField headerSize at *
  unfold tmpHeader configRefreshField configNcdlField crcVerInitField
  rcases (by omega : i < 12 ∨ 12 ≤ i ∧ i < 16 ∨ 16 ≤ i) with h | h | h
  · obtain ⟨k, rfl⟩ := Nat.exists_eq_add_of_le hi
    rw [putWord_outside _ _ (by omega), putWord_outside _ _ (by omega),
      putWord_getWord _ _ _ _ (by omega), Nat.add_assoc]
  · obtain ⟨k, rfl⟩ := Nat.exists_eq_add_of_le h.1
    rw [putWord_outside _ _ (by omega), putWord_getWord _ _ _ _ (by omega), Nat.add_assoc]
  · obtain ⟨k, rfl⟩ := Nat.exists_eq_add_of_le h
    rw [putWord_getWord _ _ _ _ (by omega), Nat.add_assoc]

/-- The two pieces of nvram_commit are the stored header behind the CRC and the data. -/
theorem commitCrc_eq (h : Handle) {len : ℕ}
    (hlen : (getWord (uncheckedImage h) (h.offset + lenField) + 2 ^ 32 - headerSize) % 2 ^ 32 =
      len) :
    commitCrc h = hndcrc8 (memBytes (uncheckedImage h) (h.offset + nvramCrcStartPosition)
      (headerSize - nvramCrcStartPosition + len)) 0xff := by
  have htmp : memBytes (tmpHeader (getWord (uncheckedImage h) (h.offset + crcVerInitField))
        (getWord (uncheckedImage h) (h.offset + configRefreshField))
        (getWord (uncheckedImage h) (h.offset + configNcdlField))) nvramCrcStartPosition
        (headerSize - nvramCrcStartPosition) =
      memBytes (uncheckedImage h) (h.offset + nvramCrcStartPosition)
        (headerSize - nvramCrcStartPosition) := by
    refine memBytes_congr fun i hi => ?_
    unfold headerSize nvramCrcStartPosition at *
    rw [tmpHeader_bytes _ _ (by unfold crcVerInitField; omega) (by unfold headerSize; omega),
      Nat.add_assoc]
  have hdata : h.offset + nvramCrcStartPosition + (headerSize - nvramCrcStartPosition) =
      h.offset + headerSize := by
    unfold headerSize nvramCrcStartPosition
    omega
  unfold commitCrc
  dsimp only
  rw [hlen, htmp, memBytes_append, hndcrc8_append, hdata]

/-- The length that is stored covers the header; the field wraps at most to zero. -/
theorem newLength_bounds {h : Handle} (hlen : h.length < 2 ^ 32)
    (hroom : h.offset + headerSize ≤ h.length) :
    headerSize < newLength h (writeData h).1 ∧ newLength h (writeData h).1 ≤ 2 ^ 32 := by
  have hgrown := writeTuples_grown (h.length - 2) h.nvramHash
    (h.offset + headerSize, clearedImage h)
  rw [← writeData_eq] at hgrown
  have hle : h.offset + headerSize ≤ (writeData h).1 := hgrown.le
  have hbound : (writeData h).1 ≤ max (h.offset + headerSize) (h.length - 2) := hgrown.bound
  unfold newLength nvramRoundup
  unfold headerSize at *
  omega

/-- The number of data bytes that are hashed. -/
theorem uncheckedImage_covered {h : Handle} (hlen : h.length < 2 ^ 32)
    (hroom : h.offset + headerSize ≤ h.length) :
    (getWord (uncheckedImage h) (h.offset + lenField) + 2 ^ 32 - headerSize) % 2 ^ 32 =
      newLength h (writeData h).1 - headerSize := by
  obtain ⟨hmin, hmax⟩ := newLength_bounds hlen hroom
  unfold uncheckedImage
  rw [getWord_putWord_mod]
  unfold headerSize at *
  omega

theorem commitImage_eq {h : Handle} (hlen : h.length < 2 ^ 32)
    (hroom : h.offset + headerSize ≤ h.length) :
    commitImage h =
      Function.update (uncheckedImage h) (h.offset + crcVerInitField) (commitCrc h) := by
  have hcrc : commitCrc h = hndcrc8 (memBytes (uncheckedImage h) (h.offset + headerSize)
      (newLength h (writeData h).1 - headerSize))
      (hndcrc8 (memBytes (uncheckedImage h) (h.offset + nvramCrcStartPosition)
        (headerSize - nvramCrcStartPosition)) 0xff) := by
    rw [commitCrc_eq h (uncheckedImage_covered hlen hroom), memBytes_append, hndcrc8_append]
    rfl
  rw [← putWord_or _ _ _ (uncheckedImage_crc h), hcrc]
  rfl

theorem getWord_low (m : Mem) (p : ℕ) : (getWord m p % 2 ^ 8).toUInt8 = m p := by
  have hlow : getWord m p % 2 ^ 8 = (m p).toNat := by
    have := (m p).toNat_lt
    unfold getWord
    omega
  rw [hlow]
  exact UInt8.ofNat_toNat

/-- The info command on the image of a commit. -/
theorem doInfo_committed {h g : Handle} (hlen : h.length < 2 ^ 32)
    (hroom : h.offset + headerSize ≤ h.length) (hmmap : g.mmap = commitImage h)
    (hoffset : g.offset = h.offset) :
    (doInfo g).crc8 = commitCrc h ∧ (doInfo g).calculated = commitCrc h := by
  have himage := commitImage_eq hlen hroom
  obtain ⟨hmin, hmax⟩ := newLength_bounds hlen hroom
  have hsame : ∀ x, h.offset + crcVerInitField < x ∨ x < h.offset + crcVerInitField →
      commitImage h x = uncheckedImage h x := by
    intro x hx
    rw [himage, Function.update_of_ne (by omega)]
  have hword : getWord (commitImage h) (h.offset + lenField) =
      newLength h (writeData h).1 % 2 ^ 32 := by
    rw [getWord_congr fun x _ hlt => hsame x (Or.inr (by
      unfold lenField at hlt
      unfold crcVerInitField
      omega))]
    exact getWord_putWord_mod _ _ _
  unfold doInfo
  rw [hmmap, hoffset]
  dsimp only
  constructor
  · rw [getWord_low, himage, Function.update_self]
  · have hcount : (getWord (commitImage h) (h.offset + lenField) + 2 ^ 32 - nvramCrcStartPosition) %
        2 ^ 32 = headerSize - nvramCrcStartPosition + (newLength h (writeData h).1 - headerSize) := by
      rw [hword]
      unfold headerSize nvramCrcStartPosition at *
      omega
    rw [hcount, commitCrc_eq h (uncheckedImage_covered hlen hroom)]
    refine congrArg (fun bytes => hndcrc8 bytes 0xff) (memBytes_congr fun i _ => ?_)
    exact hsame _ (Or.inl (by unfold crcVerInitField nvramCrcStartPosition; omega))

theorem Located.offset_eq {h g : Handle} (hh : Located h) (hg : Located g)
    (hmmap : g.mmap = h.mmap) : g.offset = h.offset := by
  have hnot (a b : Handle) (ha : Located a) (hb : Located b) (hab : a.mmap = b.mmap) :
      ¬a.offset / 4 < b.offset / 4 := by
    intro hlt
    have hoffset : 4 * (a.offset / 4) = a.offset := by
      have := ha.aligned
      omega
    refine hb.first _ hlt ?_
    rw [hoffset, ← hab]
    exact ha.magic
  have h1 := hnot h g hh hg hmmap.symm
  have h2 := hnot g h hg hh hmmap
  have h3 := hh.aligned
  have h4 := hg.aligned
  omega

/-- The CRC that a commit stores is the one that the info command calculates, on the
handle that the commit leaves and on every handle opened from the image. -/
theorem info_crc_agrees {h h' : Handle} {ret : ℤ} (hlen : h.length < 2 ^ 32)
    (hcommit : nvramCommit h = some (ret, h')) :
    (∀ x y c, hndcrc8 (x ++ y) c = hndcrc8 y (hndcrc8 x c)) ∧
      (doInfo h').crc8 = commitCrc h ∧ (doInfo h').calculated = commitCrc h ∧
      ∀ rdonly g, Located h → nvramOpen h.length h'.mmap rdonly = some g →
        (doInfo g).crc8 = commitCrc h ∧ (doInfo g).calculated = commitCrc h := by
  have hroom : h.offset + headerSize ≤ h.length := by
    by_contra hno
    unfold nvramCommit at hcommit
    rw [if_pos (by omega)] at hcommit
    cases hcommit
  have hsame := (nvramRehash_wf (commit_ret hcommit).2).2
  obtain ⟨hcrc, hcalculated⟩ := doInfo_committed hlen hroom hsame.mmap hsame.offset
  refine ⟨hndcrc8_append, hcrc, hcalculated, fun rdonly g hloc hopen => ?_⟩
  obtain ⟨g0, _, hmmap, hloc0, hrehash, _⟩ := nvramOpen_eq_some hopen
  have hopened := (nvramRehash_wf hrehash).2
  have hoffset : g0.offset = h'.offset := (hloc.commit.of_same hsame).offset_eq hloc0 hmmap
  refine doInfo_committed hlen hroom ?_ ?_
  · exact hopened.mmap.trans (hmmap.trans hsame.mmap)
  · exact hopened.offset.trans (hoffset.trans hsame.offset)

theorem info_crc_agrees_blank :
    (doInfo (committed (opened 160))).calculated = commitCrc (opened 160) ∧
      (nvramCommit (opened 160)).map (fun r => (doInfo r.2).crc8) = some (commitCrc (opened 160)) := by
  have hsome : (nvramCommit (opened 160)).isSome := by decide +kernel
  obtain ⟨⟨ret, h'⟩, hcommit⟩ := Option.isSome_iff_exists.mp hsome
  have hsame := (nvramRehash_wf (commit_ret hcommit).2).2
  obtain ⟨_, hcrc, hcalculated, _⟩ :=
    info_crc_agrees (show (opened 160).length < 2 ^ 32 by decide +kernel) hcommit
  constructor
  · rw [← hcalculated]
    unfold doInfo
    rw [hsame.mmap, hsame.offset, hsame.length]
  · rw [hcommit, Option.map_some, hcrc]

end Iot7688.Nvram
