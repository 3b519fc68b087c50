import Iot7688.LmoRoundTrip

/-!
The search in an index of any file. The file names the place of its index itself, and
the length of the index is a quotient of a difference that is not looked at: an index
shorter than one entry sends the search behind the mapping. In all others the search
stays in the index and finds what its midpoints lead to, whose offset and length are
used as they are stored.
-/
namespace Iot7688.Lmo

open Lib Po2lmo
open Template (ascii)

/-- A file whose size is kept in 32 bits. -/
def mapFile (file : List Byte) (around : ℤ → Byte) : Mapping :=
  ⟨file.take (UInt32.ofNat file.length).toNat, around⟩

/-- The search between two bounds reads the key of this element of the index. -/
inductive Reads (keyId : ℕ → UInt32) (hash : UInt32) : UInt32 → UInt32 → UInt32 → Prop
  | here {l r : UInt32} : l ≤ r → Reads keyId hash l r (l + (r - l) / 2)
  | left {l r m : UInt32} : l ≤ r → hash < keyId (l + (r - l) / 2).toNat → l + (r - l) / 2 ≠ 0 →
      Reads keyId hash l (l + (r - l) / 2 - 1) m → Reads keyId hash l r m
  | right {l r m : UInt32} : l ≤ r → keyId (l + (r - l) / 2).toNat < hash →
      Reads keyId hash (l + (r - l) / 2 + 1) r m → Reads keyId hash l r m

namespace LmoArchive

variable (ar : LmoArchive)

def outlen (m : ℕ) : ℤ := (ar.valLength m).toInt32.toInt

/-- The whole element lies in the mapping. -/
def Inside (m : ℕ) : Prop := ar.index.toNat + 16 * m + 16 ≤ ar.size.toNat

/-- The string of the entry ends in the mapping. -/
def Fits (m : ℕ) : Prop := (ar.offset m).toNat + ar.outlen m ≤ ar.size.toNat

/-- What a translation may do: it ends, reads elements in the mapping only, and gives out
a string in it. -/
structure Contained (key : List Byte) : Prop where
  ends : ∃ rounds found, lmoFindEntry rounds ar (lmoCanonHash key) = some found
  translates : ∃ rounds result, lmoTranslate rounds (some [ar]) key = some result
  reads : ∀ m, Reads ar.keyId (lmoCanonHash key) 0 (ar.length - 1) m → ar.Inside m.toNat
  fits : ∀ rounds m, lmoFindEntry rounds ar (lmoCanonHash key) = some (some m) → ar.Fits m.toNat

/-- The midpoints of the index lead to this element for the hash. -/
def LeadsTo (hash : UInt32) (m : ℕ) : Prop :=
  Leads (fun m => (ar.keyId m).toNat) hash.toNat 0 (ar.length.toNat - 1) m

/-- The index has an entry at least, and one that the midpoints lead to has its string in
the file. -/
def Sound (hash : UInt32) : Prop :=
  ar.index.toNat + 20 ≤ ar.size.toNat ∧ ∀ m, ar.LeadsTo hash m → ar.Fits m

/-- The keys of the index are in order. -/
def Sorted : Prop := ∀ i j, i ≤ j → j < ar.length.toNat → ar.keyId i ≤ ar.keyId j

/-- The search ends, with an entry of this key if there is one. -/
def Finds (hash : UInt32) : Prop :=
  ∃ rounds found, lmoFindEntry rounds ar hash = some found ∧
    (∀ m, found = some m → m < ar.length ∧ ar.keyId m.toNat = hash) ∧
    (found = none → ∀ m < ar.length.toNat, ar.keyId m ≠ hash)

end LmoArchive

variable {keyId : ℕ → UInt32} {hash l r m : UInt32} {ar : LmoArchive}

/-- Between bounds that do not wrap only elements between them are read. -/
theorem Reads.le (h : Reads keyId hash l r m) (hr : r.toNat < 2 ^ 31) : m.toNat ≤ r.toNat := by
  have hmid : ∀ {l r : UInt32}, l ≤ r → r.toNat < 2 ^ 31 → (l + (r - l) / 2).toNat ≤ r.toNat := by
    intro l r hle hr
    rw [UInt32.le_iff_toNat_le] at hle
    rw [midpoint_toNat hr hle]
    exact midpoint_le hle
  induction h with
  | here hle => exact hmid hle hr
  | @left l r m hle _ hpos _ ih =>
    have hbound := hmid hle hr
    have hpred := pred_toNat hpos
    exact (ih (by omega)).trans (by omega)
  | right _ _ _ ih => exact ih hr

theorem lmoOpen_some {f : Mapping} (h : lmoOpen f = some ar) :
    ar.index < ar.size ∧ ar.length = (ar.size - ar.index - 4) / 16 := by
  unfold lmoOpen at h
  split at h
  · cases h
  dsimp only at h
  split at h
  · cases h
  next hlt =>
    obtain rfl := Option.some.inj h
    exact ⟨UInt32.not_le.mp hlt, rfl⟩

theorem inside_of_lt {m : ℕ} (hlt : ar.index < ar.size)
    (hlength : ar.length = (ar.size - ar.index - 4) / 16)
    (hroom : ar.index.toNat + 20 ≤ ar.size.toNat) : 0 < ar.length.toNat ∧ ar.length.toNat < 2 ^ 28 ∧
      (m < ar.length.toNat → ar.Inside m) := by
  have hdiff := UInt32.toNat_sub_of_le ar.size ar.index (UInt32.le_of_lt hlt)
  have hfour : (4 : UInt32).toNat = 4 := rfl
  have hsixteen : (16 : UInt32).toNat = 16 := rfl
  have hsize := ar.size.toNat_lt
  have hdiff' := UInt32.toNat_sub_of_le (ar.size - ar.index) 4
    (UInt32.le_iff_toNat_le.mpr (by omega))
  rw [hlength, UInt32.toNat_div, hdiff', hdiff, hfour, hsixteen]
  unfold LmoArchive.Inside
  exact ⟨by omega, by omega, by omega⟩

/-- In an index without a whole entry the first read is behind the mapping. -/
theorem reads_outside (hash : UInt32) (hlt : ar.index < ar.size)
    (hlength : ar.length = (ar.size - ar.index - 4) / 16)
    (hshort : ¬ar.index.toNat + 20 ≤ ar.size.toNat) :
    ∃ m, Reads ar.keyId hash 0 (ar.length - 1) m ∧ ¬ar.Inside m.toNat := by
  refine ⟨_, .here (UInt32.le_iff_toNat_le.mpr (Nat.zero_le _)), ?_⟩
  have hdiff := UInt32.toNat_sub_of_le ar.size ar.index (UInt32.le_of_lt hlt)
  have hone : (1 : UInt32).toNat = 1 := rfl
  have htwo : (2 : UInt32).toNat = 2 := rfl
  have hfour : (4 : UInt32).toNat = 4 := rfl
  have hsixteen : (16 : UInt32).toNat = 16 := rfl
  rw [UInt32.lt_iff_toNat_lt] at hlt
  -- the length is 0, or 4 has wrapped
  have hmid : 2 ≤ (0 + (ar.length - 1 - 0) / 2).toNat := by
    rw [UInt32.zero_add, UInt32.sub_zero, UInt32.toNat_div, UInt32.toNat_sub, hlength,
      UInt32.toNat_div, UInt32.toNat_sub, hdiff, hone, htwo, hfour, hsixteen]
    omega
  unfold LmoArchive.Inside
  omega

theorem last_toNat (hpos : 0 < ar.length.toNat) : (ar.length - 1).toNat = ar.length.toNat - 1 := by
  rw [pred_toNat]
  rintro h
  rw [h] at hpos
  cases hpos

/-- The search in an index that is not empty, as binary search. -/
theorem lmoFindEntry_eq (rounds : ℕ) (hash : UInt32) (hpos : 0 < ar.length.toNat)
    (hlength : ar.length.toNat < 2 ^ 31) : lmoFindEntry rounds ar hash =
      (binarySearch (fun m => (ar.keyId m).toNat) hash.toNat rounds 0 (ar.length.toNat - 1)).map
        (Option.map UInt32.ofNat) := by
  have hlast := last_toNat hpos
  rw [← hlast]
  exact findLoop_eq ar.keyId hash rounds (by omega) (Nat.zero_le _)

theorem lmoFindEntry_total (hash : UInt32) (hpos : 0 < ar.length.toNat)
    (hlength : ar.length.toNat < 2 ^ 31) :
    ∃ rounds found, binarySearch (fun m => (ar.keyId m).toNat) hash.toNat rounds 0
      (ar.length.toNat - 1) = some found ∧
      lmoFindEntry rounds ar hash = some (found.map UInt32.ofNat) := by
  obtain ⟨found, hfound⟩ := binarySearch_total (fun m => (ar.keyId m).toNat) hash.toNat
    (Nat.zero_le (ar.length.toNat - 1 + 1)) (Nat.lt_succ_self _)
  refine ⟨_, found, hfound, ?_⟩
  rw [lmoFindEntry_eq _ hash hpos hlength, hfound]
  rfl

/-- What is found is what the midpoints lead to. -/
theorem lmoFindEntry_leads {rounds : ℕ} {found : Option UInt32} (hpos : 0 < ar.length.toNat)
    (hlength : ar.length.toNat < 2 ^ 31) (h : lmoFindEntry rounds ar hash = some found) (m : UInt32) :
    found = some m ↔ ar.LeadsTo hash m.toNat := by
  rw [lmoFindEntry_eq rounds hash hpos hlength, Option.map_eq_some_iff] at h
  obtain ⟨found, hfound, rfl⟩ := h
  refine Iff.trans ?_ (binarySearch_leads hfound m.toNat)
  cases found with
  | none => simp
  | some k =>
    have hk := (binarySearch_sound hfound).2.1
    have hnat : (UInt32.ofNat k).toNat = k := UInt32.toNat_ofNat_of_lt (show k < 2 ^ 32 by omega)
    rw [Option.map_some, Option.some.injEq, Option.some.injEq, ← UInt32.toNat_inj, hnat]

/-- A translation stays in the file exactly when the index has an entry at least and the
entry that it comes to has its string in the file. -/
theorem contained_iff (file : List Byte) (around : ℤ → Byte) (key : List Byte)
    (hopen : lmoOpen (mapFile file around) = some ar) :
    ar.Contained key ↔ ar.Sound (lmoCanonHash key) := by
  obtain ⟨hlt, hlen⟩ := lmoOpen_some hopen
  constructor
  · intro h
    have hroom : ar.index.toNat + 20 ≤ ar.size.toNat := by
      by_contra hshort
      obtain ⟨m, hreads, houtside⟩ := reads_outside (lmoCanonHash key) hlt hlen hshort
      exact houtside (h.reads m hreads)
    obtain ⟨hpos, hlength, -⟩ := inside_of_lt (m := 0) hlt hlen hroom
    obtain ⟨rounds, found, hfind⟩ := h.ends
    refine ⟨hroom, fun m hleads => ?_⟩
    have hm := hleads.2.1
    have hnat : (UInt32.ofNat m).toNat = m := UInt32.toNat_ofNat_of_lt (show m < 2 ^ 32 by omega)
    rw [← hnat] at hleads ⊢
    obtain rfl := (lmoFindEntry_leads hpos (by omega) hfind _).mpr hleads
    exact h.fits rounds _ hfind
  · rintro ⟨hroom, hfits⟩
    obtain ⟨hpos, hlength, -⟩ := inside_of_lt (m := 0) hlt hlen hroom
    have hlarge : ar.length.toNat < 2 ^ 31 := by omega
    obtain ⟨rounds, found, -, hfind⟩ := lmoFindEntry_total (lmoCanonHash key) hpos hlarge
    refine ⟨⟨rounds, _, hfind⟩, ⟨rounds, ?_⟩, fun m hreads => ?_, fun rounds m hfind => ?_⟩
    · rw [lmoTranslate, translateIn, hfind]
      cases found with
      | none => exact ⟨_, rfl⟩
      | some m => exact ⟨_, rfl⟩
    · have hlast := last_toNat hpos
      have hle := hreads.le (by omega)
      exact (inside_of_lt hlt hlen hroom).2.2 (by omega)
    · exact hfits _ ((lmoFindEntry_leads hpos hlarge hfind m).mp rfl)

/-- A file with the value of one entry, which the empty key leads to. -/
def oneFile : List Byte :=
  ascii "abcd" ++ [0, 0, 0, 0, 0, 0, 0, 0, 0, 0, 0, 0, 0, 0, 0, 4, 0, 0, 0, 4]

def oneArchive : LmoArchive := ⟨1, 24, 4, mapFile oneFile fun _ => 0⟩

theorem oneArchive_open : lmoOpen (mapFile oneFile fun _ => 0) = some oneArchive := rfl

theorem contained_iff_one :
    oneArchive.Contained (ascii "") ↔ oneArchive.Sound (lmoCanonHash (ascii "")) :=
  contained_iff oneFile (fun _ => 0) (ascii "") oneArchive_open

/-- The file of an empty index. -/
def emptyFile : List Byte := [0, 0, 0, 0]

def emptyArchive : LmoArchive := ⟨0, 4, 0, mapFile emptyFile fun _ => 0⟩

theorem emptyArchive_open : lmoOpen (mapFile emptyFile fun _ => 0) = some emptyArchive := rfl

/-- An empty index is read far behind the mapping. -/
theorem emptyArchive_not_contained : lmoOpen (mapFile emptyFile fun _ => 0) = some emptyArchive ∧
    ¬emptyArchive.Contained (ascii "") := by
  refine ⟨emptyArchive_open, fun h => ?_⟩
  have hroom := h.reads _ (.here (by decide))
  exact absurd hroom (by unfold LmoArchive.Inside; decide +kernel)

/-- An index in order is searched rightly exactly when it is not empty. -/
theorem finds_iff (hlength : ar.length.toNat < 2 ^ 31) (hsorted : ar.Sorted) :
    (∀ hash, ar.Finds hash) ↔ ar.length ≠ 0 := by
  constructor
  · intro h hzero
    -- the key that is read first is found, though it belongs to no entry
    obtain ⟨rounds, found, hfind, hsome, -⟩ := h (ar.keyId (0 + (ar.length - 1 - 0) / 2).toNat)
    have hfirst : found = some (0 + (ar.length - 1 - 0) / 2) := by
      rw [lmoFindEntry] at hfind
      cases rounds with
      | zero => cases hfind
      | succ rounds =>
        have hge : ¬ar.length - 1 < 0 := UInt32.not_lt_zero
        rw [findLoop, if_neg hge, if_pos rfl] at hfind
        exact (Option.some.inj hfind).symm
    have hbelow := (hsome _ hfirst).1
    rw [hzero] at hbelow
    exact UInt32.not_lt_zero hbelow
  · intro hne hash
    have hpos : 0 < ar.length.toNat :=
      Nat.pos_of_ne_zero fun hzero => hne (UInt32.toNat_inj.mp hzero)
    obtain ⟨rounds, found, hsearch, hfind⟩ := lmoFindEntry_total hash hpos hlength
    refine ⟨rounds, _, hfind, fun m hm => ?_, fun hnone m hm hkey => ?_⟩
    · obtain ⟨-, hlast, hkey, -⟩ := (lmoFindEntry_leads hpos hlength hfind m).mp hm
      rw [UInt32.lt_iff_toNat_lt]
      exact ⟨by omega, UInt32.toNat_inj.mp hkey⟩
    · obtain rfl := Option.map_eq_none_iff.mp hnone
      refine binarySearch_complete (fun i j _ hij hj => ?_) hsearch (Nat.zero_le m) (by omega)
        (congrArg UInt32.toNat hkey)
      exact UInt32.le_iff_toNat_le.mp (hsorted i j hij (by omega))

/-- An archive of one entry. -/
theorem finds_iff_one : (∀ hash, oneArchive.Finds hash) ↔ oneArchive.length ≠ 0 :=
  finds_iff (by decide) fun i j hij hj => by
    have hj : j < 1 := hj
    obtain rfl : i = j := by omega
    exact UInt32.le_refl _

/-- In an empty index the search returns an entry behind the mapping. -/
theorem emptyArchive_not_finds : emptyArchive.length = 0 ∧ emptyArchive.Sorted ∧
    ¬emptyArchive.Finds 0 := by
  refine ⟨rfl, fun i j _ hj => absurd hj (Nat.not_lt_zero j), ?_⟩
  rintro ⟨rounds, found, hfind, hsome, -⟩
  have hfirst : lmoFindEntry 1 emptyArchive 0 = some (some 0x7fffffff) := by decide +kernel
  cases rounds with
  | zero => cases hfind
  | succ rounds =>
    have hsame := findLoop_mono hfirst (Nat.le_add_left 1 rounds)
    obtain rfl := Option.some.inj (hsame.symm.trans hfind)
    exact absurd (hsome _ rfl).1 (by decide)

end Iot7688.Lmo
