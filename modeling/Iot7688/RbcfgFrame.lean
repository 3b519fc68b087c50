import Iot7688.Rbcfg

/-!
What rbcfg_set_u32 does to the other tags. The four bytes of a word are stored whatever the
length of the tag, so a tag that is shorter gives its neighbour, or what lies behind the
buffer, the rest of them.
-/
namespace Iot7688.Rbcfg

open Lib

/-- The length and the id of a tag, or a terminator, and where they are. -/
structure Header where
  place : ℕ
  len0 : Byte
  len1 : Byte
  id0 : Byte
  id1 : Byte
deriving DecidableEq

namespace Header

def len (h : Header) : ℕ := getU16 h.len0 h.len1

def id (h : Header) : ℕ := getU16 h.id0 h.id1

def bytes (h : Header) : List Byte := [h.len0, h.len1, h.id0, h.id1]

end Header

/-- All headers that rbcfg_find_tag comes to, when it finds nothing. -/
def headersFrom (off : ℕ) (buf : List Byte) : List Header :=
  match buf with
  | len0 :: len1 :: id0 :: id1 :: rest =>
      let h : Header := ⟨off, len0, len1, id0, id1⟩
      if h.id = rbIdTerminator ∨ rest.length < h.len then [h]
      else h :: headersFrom (off + 4 + h.len) (rest.drop h.len)
  | _ => []
termination_by buf.length
decreasing_by
  simp only [List.length_drop, List.length_cons]
  omega

def headers (buf : List Byte) : List Header := headersFrom 8 (buf.drop 8)

/-- A header with all of its data, and no terminator. -/
def Header.Tag (h : Header) (buf : List Byte) : Prop :=
  h.id ≠ rbIdTerminator ∧ h.place + 4 + h.len ≤ buf.length

/-- The header of a tag that a search ends with, in a buffer up to a place. -/
def Header.Found (id last : ℕ) (h : Header) : Prop :=
  h.id ≠ rbIdTerminator ∧ h.place + 4 + h.len ≤ last ∧ h.id = id

instance (id last : ℕ) : DecidablePred (Header.Found id last) := fun h =>
  inferInstanceAs (Decidable (h.id ≠ rbIdTerminator ∧ h.place + 4 + h.len ≤ last ∧ h.id = id))

/-- The headers are as they were, and so are the data of all tags but one. -/
structure Framed (buf buf' : List Byte) (id : ℕ) : Prop where
  headers : headers buf' = headers buf
  others : ∀ h ∈ Rbcfg.headers buf, h.Tag buf → findTag buf id ≠ .ok (h.len, h.place + 4) →
    segment buf' (h.place + 4) h.len = segment buf (h.place + 4) h.len

/-- The store and the load of a word keep to the tag, and rbcfg_load accepts the image. -/
structure Stores (buf : List Byte) (id : ℕ) (v : UInt32) : Prop where
  ends : 4 * (headers buf).length ≤ buf.length - 8
  inside : ∀ len p, findTag buf id = .ok (len, p) → 12 ≤ p ∧ p + len ≤ buf.length
  reads : tagGetU32 buf id ≠ .error .outside
  writes : tagSetU32 buf id v ≠ .error .outside
  gets : ∀ buf', tagSetU32 buf id v = .ok buf' → tagGetU32 buf' id = .ok v
  framed : ∀ buf', tagSetU32 buf id v = .ok buf' → Framed buf buf' id
  accepted : ∀ buf', tagSetU32 buf id v = .ok buf' →
    ∃ image loaded, stamped buf' = .ok image ∧ checked image = .ok loaded

/-- The tag has room for the word, or the bytes behind its data are there already, or no
header can be there. -/
def Fits (buf : List Byte) (len p : ℕ) (v : UInt32) : Prop :=
  4 ≤ len ∨ p + 4 ≤ buf.length ∧
    (segment buf (p + len) (4 - len) = (be32 v).drop len ∨ buf.length < p + len + 4)

section

variable {id off len p : ℕ} {buf : List Byte}

theorem headersFrom_short (h : buf.length < 4) : headersFrom off buf = [] := by
  rw [headersFrom]
  rintro len0 len1 id0 id1 rest rfl
  simp only [List.length_cons] at h
  omega

/-- The walk takes four bytes each time, and more for the data. -/
theorem headersFrom_length : 4 * (headersFrom off buf).length ≤ buf.length := by
  fun_induction headersFrom off buf with
  | case1 off len0 len1 id0 id1 rest h hstop =>
    simp only [List.length_cons, List.length_nil]
    omega
  | case2 off len0 len1 id0 id1 rest h hstop ih =>
    simp only [List.length_cons, List.length_drop] at ih ⊢
    omega
  | case3 => exact Nat.zero_le _

/-- Behind a header and its data. -/
theorem segment_header (a b c d : Byte) (rest : List Byte) (n k count : ℕ) :
    segment (a :: b :: c :: d :: rest) (4 + n + k) count = segment (rest.drop n) k count := by
  unfold Lib.segment
  rw [List.drop_drop, show 4 + n + k = n + k + 1 + 1 + 1 + 1 by omega, List.drop_succ_cons,
    List.drop_succ_cons, List.drop_succ_cons, List.drop_succ_cons]

theorem headersFrom_bytes {h : Header} (hmem : h ∈ headersFrom off buf) :
    off ≤ h.place ∧ h.place + 4 ≤ off + buf.length ∧
      segment buf (h.place - off) 4 = h.bytes := by
  fun_induction headersFrom off buf with
  | case1 off len0 len1 id0 id1 rest first hstop =>
    obtain rfl := List.mem_singleton.mp hmem
    have hplace : first.place = off := rfl
    rw [hplace, Nat.sub_self]
    refine ⟨Nat.le_refl _, ?_, rfl⟩
    simp only [List.length_cons]
    omega
  | case2 off len0 len1 id0 id1 rest first hstop ih =>
    rcases List.mem_cons.mp hmem with rfl | hmem
    · have hplace : first.place = off := rfl
      rw [hplace, Nat.sub_self]
      refine ⟨Nat.le_refl _, ?_, rfl⟩
      simp only [List.length_cons]
      omega
    · obtain ⟨hoff, hend, hbytes⟩ := ih hmem
      rw [List.length_drop] at hend
      have hskip : h.place - off = 4 + first.len + (h.place - (off + 4 + first.len)) := by omega
      rw [hskip, segment_header, hbytes, List.length_cons, List.length_cons, List.length_cons,
        List.length_cons]
      exact ⟨by omega, by omega, rfl⟩
  | case3 => cases hmem

/-- In front of the end the walk goes on behind the data. -/
theorem headersFrom_cons {len0 len1 id0 id1 : Byte} {rest : List Byte}
    (hend : getU16 id0 id1 ≠ rbIdTerminator) (hfit : ¬rest.length < getU16 len0 len1) :
    headersFrom off (len0 :: len1 :: id0 :: id1 :: rest) = ⟨off, len0, len1, id0, id1⟩ ::
      headersFrom (off + 4 + getU16 len0 len1) (rest.drop (getU16 len0 len1)) := by
  rw [headersFrom]
  exact if_neg (not_or.mpr ⟨hend, hfit⟩)

/-- Where the other headers are, when a tag is found. -/
theorem headersFrom_apart {h : Header} (hfind : findTagFrom id off buf = .ok (len, p))
    (hmem : h ∈ headersFrom off buf) :
    h.place + 4 = p ∧ h.len = len ∨ h.place + 4 + h.len + 4 ≤ p ∨ p + len ≤ h.place := by
  fun_induction findTagFrom id off buf with
  | case1 | case2 | case5 => cases hfind
  | case3 off len0 len1 id0 id1 rest _ _ hend hfit _ =>
    obtain ⟨rfl, rfl⟩ := Prod.mk.inj (Except.ok.inj hfind)
    rw [headersFrom_cons hend hfit] at hmem
    rcases List.mem_cons.mp hmem with rfl | hmem
    · exact Or.inl ⟨rfl, rfl⟩
    · exact Or.inr (Or.inr (headersFrom_bytes hmem).1)
  | case4 off len0 len1 id0 id1 rest _ _ hend hfit _ ih =>
    rw [headersFrom_cons hend hfit] at hmem
    rcases List.mem_cons.mp hmem with rfl | hmem
    · exact Or.inr (Or.inl (findTagFrom_place hfind).1)
    · exact ih hfind hmem

/-- Behind a tag that is found there is the next header, if it has room. -/
theorem headersFrom_next (hfind : findTagFrom id off buf = .ok (len, p))
    (hroom : p + len + 4 ≤ off + buf.length) : ∃ h ∈ headersFrom off buf, h.place = p + len := by
  fun_induction findTagFrom id off buf with
  | case1 | case2 | case5 => cases hfind
  | case3 off len0 len1 id0 id1 rest _ _ hend hfit _ =>
    obtain ⟨rfl, rfl⟩ := Prod.mk.inj (Except.ok.inj hfind)
    rw [headersFrom_cons hend hfit]
    simp only [List.length_cons] at hroom
    generalize htail : rest.drop (getU16 len0 len1) = tail
    have hlen : tail.length = rest.length - getU16 len0 len1 := by rw [← htail, List.length_drop]
    rcases tail with _ | ⟨a, _ | ⟨b, _ | ⟨c, _ | ⟨d, more⟩⟩⟩⟩
    · rw [List.length_nil] at hlen
      omega
    · simp only [List.length_cons, List.length_nil] at hlen
      omega
    · simp only [List.length_cons, List.length_nil] at hlen
      omega
    · simp only [List.length_cons, List.length_nil] at hlen
      omega
    · refine ⟨⟨off + 4 + getU16 len0 len1, a, b, c, d⟩, List.mem_cons_of_mem _ ?_, rfl⟩
      rw [headersFrom]
      split
      · exact List.mem_singleton_self _
      · exact List.mem_cons_self
  | case4 off len0 len1 id0 id1 rest _ _ hend hfit _ ih =>
    simp only [List.length_cons, List.length_drop] at hroom ih
    obtain ⟨h, hmem, hplace⟩ := ih hfind (by omega)
    rw [headersFrom_cons hend hfit]
    exact ⟨h, List.mem_cons_of_mem _ hmem, hplace⟩

/-- A piece that is put over the data of a tag, or over what is behind the last header. -/
theorem headersFrom_patch {piece : List Byte} (hfind : findTagFrom id off buf = .ok (len, p))
    (hpiece : p + piece.length ≤ off + buf.length)
    (hroom : piece.length ≤ len ∨ off + buf.length < p + len + 4) :
    headersFrom off (patch buf (p - off) piece) = headersFrom off buf := by
  fun_induction findTagFrom id off buf with
  | case1 | case2 | case5 => cases hfind
  | case3 off len0 len1 id0 id1 rest _ _ hend hfit _ =>
    obtain ⟨rfl, rfl⟩ := Prod.mk.inj (Except.ok.inj hfind)
    simp only [List.length_cons] at hpiece hroom
    have hrest : 0 + piece.length ≤ rest.length := by omega
    have hplace : off + 4 - off = 0 + 4 := by omega
    rw [hplace, patch_header, headersFrom_cons hend hfit,
      headersFrom_cons hend (by rw [length_patch hrest]; exact hfit)]
    congr 1
    rcases hroom with hdata | hlast
    · rw [drop_patch_of_le (by omega) hrest]
    · rw [headersFrom_short, headersFrom_short]
      · rw [List.length_drop]
        omega
      · rw [List.length_drop, length_patch hrest]
        omega
  | case4 off len0 len1 id0 id1 rest _ _ hend hfit _ ih =>
    have hplace := findTagFrom_place hfind
    simp only [List.length_cons, List.length_drop] at hpiece hroom hplace ih
    set q := p - (off + 4) with hq
    have hrest : q + piece.length ≤ rest.length := by omega
    have hoff : p - off = q + 4 := by omega
    have hqoff : p - (off + 4 + getU16 len0 len1) = q - getU16 len0 len1 := by omega
    rw [hoff, patch_header, headersFrom_cons hend hfit,
      headersFrom_cons hend (by rw [length_patch hrest]; exact hfit),
      drop_patch (by omega) hrest, ← hqoff, ih hfind (by omega) (by omega)]

theorem headersFrom_last {len0 len1 id0 id1 : Byte} {rest : List Byte}
    (h : getU16 id0 id1 = rbIdTerminator ∨ rest.length < getU16 len0 len1) :
    headersFrom off (len0 :: len1 :: id0 :: id1 :: rest) = [⟨off, len0, len1, id0, id1⟩] := by
  rw [headersFrom]
  exact if_pos h

/-- What is found depends on the headers, and on where the buffer ends. -/
theorem findTagFrom_lookup : findTagFrom id off buf =
    match (headersFrom off buf).find? fun h => h.Found id (off + buf.length) with
    | some h => .ok (h.len, h.place + 4)
    | none => .error .notFound := by
  fun_induction findTagFrom id off buf with
  | case1 off len0 len1 id0 id1 rest _ hend =>
    rw [headersFrom_last (Or.inl hend), List.find?_cons_of_neg, List.find?_nil]
    rw [decide_eq_true_eq]
    exact fun h => h.1 hend
  | case2 off len0 len1 id0 id1 rest _ _ hend hfit =>
    rw [headersFrom_last (Or.inr hfit), List.find?_cons_of_neg, List.find?_nil]
    rw [decide_eq_true_eq]
    intro h
    have hin : off + 4 + getU16 len0 len1 ≤ off + (rest.length + 4) := h.2.1
    omega
  | case3 off len0 len1 id0 id1 rest _ _ hend hfit heq =>
    rw [headersFrom_cons hend hfit, List.find?_cons_of_pos]
    · rfl
    · rw [decide_eq_true_eq]
      refine ⟨hend, ?_, heq⟩
      show off + 4 + getU16 len0 len1 ≤ off + (rest.length + 4)
      omega
  | case4 off len0 len1 id0 id1 rest _ _ hend hfit hne ih =>
    have hlast : off + 4 + getU16 len0 len1 + (rest.drop (getU16 len0 len1)).length =
        off + (len0 :: len1 :: id0 :: id1 :: rest).length := by
      simp only [List.length_drop, List.length_cons]
      omega
    rw [headersFrom_cons hend hfit, List.find?_cons_of_neg]
    · rw [← hlast]
      exact ih
    · rw [decide_eq_true_eq]
      exact fun h => hne h.2.2
  | case5 off buf hshort =>
    rw [headersFrom]
    · rfl
    · exact hshort

end

/-- What rbcfg_update writes is accepted, whatever the tags are. -/
theorem stamped_accepted {buf : List Byte} (h : 8 ≤ buf.length) :
    ∃ image loaded, stamped buf = .ok image ∧ checked image = .ok loaded := by
  have hmagic : 0 + (be32 rbMagicSoft).length ≤ buf.length := by
    rw [be32_length]
    omega
  have hlen := length_patch hmagic
  have hclear : 4 + (be32 0).length ≤ (patch buf 0 (be32 rbMagicSoft)).length := by
    rw [hlen, be32_length]
    exact h
  have hblank : Blank (patch (patch buf 0 (be32 rbMagicSoft)) 4 (be32 0)) := by
    refine ⟨?_, ?_, segment_patch hclear⟩
    · rw [length_patch hclear, hlen]
      exact h
    · rw [segment_patch_disjoint hclear (by omega)]
      exact segment_patch hmagic
  refine ⟨sealed (patch (patch buf 0 (be32 rbMagicSoft)) 4 (be32 0)), _, ?_,
    checked_ok.mpr ⟨hblank, rfl⟩⟩
  have hput : putU32 buf 0 rbMagicSoft = .ok (patch buf 0 (be32 rbMagicSoft)) :=
    putU32_ok.mpr ⟨by omega, rfl⟩
  have hput' : putU32 (patch buf 0 (be32 rbMagicSoft)) 4 0 =
      .ok (patch (patch buf 0 (be32 rbMagicSoft)) 4 (be32 0)) := putU32_ok.mpr ⟨hclear, rfl⟩
  unfold stamped
  rw [hput]
  dsimp only
  rw [hput']
  exact putU32_ok.mpr ⟨hblank.room, rfl⟩

section

variable {id len p : ℕ} {buf : List Byte} {v : UInt32}

theorem findTag_of_headers {buf' : List Byte} (hlen : buf'.length = buf.length)
    (h : headers buf' = headers buf) : findTag buf' id = findTag buf id := by
  unfold headers at h
  unfold findTag
  rw [findTagFrom_lookup, findTagFrom_lookup, h, List.length_drop, List.length_drop, hlen]

theorem framed_patch {piece : List Byte} (hfind : findTag buf id = .ok (len, p))
    (hpiece : p + piece.length ≤ buf.length)
    (hroom : piece.length ≤ len ∨ buf.length < p + len + 4) :
    Framed buf (patch buf p piece) id := by
  obtain ⟨hp, hplace⟩ := findTag_place hfind
  have hdrop : (buf.drop 8).length = buf.length - 8 := List.length_drop
  constructor
  · unfold headers
    rw [drop_patch (by omega) hpiece]
    exact headersFrom_patch hfind (by omega) (by omega)
  · intro h hmem htag hother
    obtain ⟨-, hlast, -⟩ := headersFrom_bytes hmem
    refine segment_patch_disjoint hpiece ?_
    rcases headersFrom_apart hfind hmem with ⟨hat, hsame⟩ | hbefore | hbehind
    · refine absurd ?_ hother
      rw [hfind, hat, hsame]
    · omega
    · omega

/-- A store that fits is one that keeps to the tag. -/
theorem Fits.piece (h : Fits buf len p v) (hplace : p + len ≤ buf.length) :
    p + 4 ≤ buf.length ∧ ∃ piece, patch buf p (be32 v) = patch buf p piece ∧
      p + piece.length ≤ buf.length ∧ (piece.length ≤ len ∨ buf.length < p + len + 4) := by
  rcases h with hlen | ⟨hroom, hsame | hlast⟩
  · exact ⟨by omega, be32 v, rfl, by rw [be32_length]; omega, Or.inl hlen⟩
  · refine ⟨hroom, (be32 v).take len, ?_, ?_, Or.inl (List.length_take_le _ _)⟩
    · have hpiece : p + (be32 v).length ≤ buf.length := hroom
      have htake : ((be32 v).take len).length = min len 4 := by rw [List.length_take, be32_length]
      apply List.ext_getElem?
      intro i
      rw [getElem?_patch hpiece, getElem?_patch (by rw [htake]; omega), htake, be32_length,
        List.getElem?_take]
      by_cases hi : p + len ≤ i ∧ i < p + 4
      · have hbyte := congrArg (fun l => l[i - (p + len)]?) hsame
        rw [getElem?_segment, if_pos (by omega), List.getElem?_drop] at hbyte
        rw [if_pos (by omega), if_neg (by omega), ← show len + (i - (p + len)) = i - p by omega,
          ← hbyte]
        congr 1
        omega
      · by_cases hin : p ≤ i ∧ i < p + min len 4
        · rw [if_pos (by omega), if_pos (by omega), if_pos (by omega)]
        · rw [if_neg (by omega), if_neg hin]
    · rw [List.length_take, be32_length]
      omega
  · exact ⟨hroom, be32 v, rfl, by rw [be32_length]; omega, Or.inr hlast⟩

theorem tagSetU32_room (hfind : findTag buf id = .ok (len, p)) (hroom : p + 4 ≤ buf.length) :
    tagSetU32 buf id v = .ok (patch buf p (be32 v)) := by
  rw [tagSetU32, hfind]
  exact putU32_ok.mpr ⟨hroom, rfl⟩

theorem findTag_error {err : Err} (h : findTag buf id = .error err) : err = .notFound := by
  unfold findTag at h
  rw [findTagFrom_lookup] at h
  split at h
  · cases h
  · exact (Except.error.inj h).symm

theorem headers_length : 4 * (headers buf).length ≤ buf.length - 8 :=
  Nat.le_trans headersFrom_length (Nat.le_of_eq List.length_drop)

theorem stores_of_fits (hsize : 8 ≤ buf.length) (hfind : findTag buf id = .ok (len, p))
    (h : Fits buf len p v) : Stores buf id v := by
  have hplace := findTag_place hfind
  obtain ⟨hroom, piece, hpatch, hpiece, hfree⟩ := h.piece hplace.2
  have hset := tagSetU32_room (v := v) hfind hroom
  have hframed : Framed buf (patch buf p (be32 v)) id := by
    rw [hpatch]
    exact framed_patch hfind hpiece hfree
  have hword : p + (be32 v).length ≤ buf.length := hroom
  have hlen := length_patch hword
  refine ⟨headers_length, fun len' p' h' => findTag_place h', ?_, ?_, ?_, ?_, ?_⟩
  · rw [tagGetU32, hfind]
    dsimp only
    rw [getU32, if_pos hroom]
    exact fun h => by cases h
  · rw [hset]
    exact fun h => by cases h
  · intro buf' h'
    obtain rfl := Except.ok.inj (hset.symm.trans h')
    rw [tagGetU32, findTag_of_headers hlen hframed.headers, hfind]
    exact getU32_ok.mpr (segment_patch hword)
  · intro buf' h'
    obtain rfl := Except.ok.inj (hset.symm.trans h')
    exact hframed
  · intro buf' h'
    obtain rfl := Except.ok.inj (hset.symm.trans h')
    exact stamped_accepted (by rw [hlen]; exact hsize)

theorem fits_of_stores (hfind : findTag buf id = .ok (len, p)) (h : Stores buf id v) :
    Fits buf len p v := by
  by_cases hlen : 4 ≤ len
  · exact Or.inl hlen
  · have hroom : p + 4 ≤ buf.length := by
      by_contra hout
      refine h.writes ?_
      rw [tagSetU32, hfind]
      exact if_neg hout
    refine Or.inr ⟨hroom, ?_⟩
    by_cases hnext : buf.length < p + len + 4
    · exact Or.inr hnext
    · left
      have hframed := h.framed _ (tagSetU32_room hfind hroom)
      have hdrop : (buf.drop 8).length = buf.length - 8 := List.length_drop
      obtain ⟨hp, -⟩ := findTag_place hfind
      obtain ⟨header, hmem, hat⟩ := headersFrom_next hfind (by omega)
      have hmem' : header ∈ headers (patch buf p (be32 v)) := by
        rw [hframed.headers]
        exact hmem
      have hword : p + (be32 v).length ≤ buf.length := hroom
      -- the bytes of the next header are the same in both buffers
      have hbytes := (headersFrom_bytes hmem).2.2
      have hbytes' := (headersFrom_bytes hmem').2.2
      rw [← hbytes, hat] at hbytes'
      apply List.ext_getElem?
      intro i
      have hbyte := congrArg (fun l => l[i]?) hbytes'
      rw [getElem?_segment, List.getElem?_drop, getElem?_segment, List.getElem?_drop,
        getElem?_patch hword, be32_length] at hbyte
      rw [getElem?_segment, List.getElem?_drop]
      split
      · rw [if_pos (by omega), if_pos (by omega), if_pos (by omega)] at hbyte
        rw [show p + len + i = 8 + (p + len - 8 + i) by omega, ← hbyte]
        congr 1
        omega
      · refine (List.getElem?_eq_none ?_).symm
        rw [be32_length]
        omega

/-- Storing a word keeps to the tag, and the tags to their frame, for just these words. -/
theorem set_keeps_frame_iff {buf : List Byte} (hsize : 8 ≤ buf.length) (id : ℕ) (v : UInt32) :
    Stores buf id v ↔ ∀ len p, findTag buf id = .ok (len, p) → Fits buf len p v := by
  refine ⟨fun h len p hfind => fits_of_stores hfind h, fun h => ?_⟩
  cases hfind : findTag buf id with
  | ok tag => exact stores_of_fits hsize hfind (h tag.1 tag.2 hfind)
  | error err =>
    have hget : tagGetU32 buf id = .error err := by rw [tagGetU32, hfind]
    have hset : tagSetU32 buf id v = .error err := by rw [tagSetU32, hfind]
    have herr : err ≠ .outside := by
      rw [findTag_error hfind]
      decide
    refine ⟨headers_length, fun len p h' => ?_, ?_, ?_, ?_, ?_, ?_⟩
    · rw [hfind] at h'
      cases h'
    · rw [hget]
      exact fun h' => herr (Except.error.inj h')
    · rw [hset]
      exact fun h' => herr (Except.error.inj h')
    · intro buf' h'
      rw [hset] at h'
      cases h'
    · intro buf' h'
      rw [hset] at h'
      cases h'
    · intro buf' h'
      rw [hset] at h'
      cases h'

/-- A boot delay of two seconds in four bytes, and the terminator. -/
def oneTag : List Byte := List.replicate 8 0 ++ [0, 4, 0, 2, 0, 0, 0, 2, 0, 0, 0, 0]

theorem set_keeps_frame_oneTag : Stores oneTag rbIdBootDelay 5 := by
  refine (set_keeps_frame_iff (by decide) rbIdBootDelay 5).mpr fun len p hfind => Or.inl ?_
  have htag : findTag oneTag rbIdBootDelay = .ok (4, 12) := by decide +kernel
  obtain ⟨rfl, -⟩ := Prod.mk.inj (Except.ok.inj (htag.symm.trans hfind))
  decide

/-- A boot delay in two bytes, a key and the terminator. -/
def shortTag : List Byte :=
  List.replicate 8 0 ++ [0, 2, 0, 2, 0, 2, 0, 4, 0, 4, 0, 0, 0, 1, 0, 0, 0, 0]

/-- The length of the key becomes five. -/
theorem short_tag_overruns : ¬Stores shortTag rbIdBootDelay 5 := by
  intro h
  have hset : tagSetU32 shortTag rbIdBootDelay 5 = .ok (patch shortTag 12 (be32 5)) := by
    decide +kernel
  exact absurd (h.framed _ hset).headers (by decide +kernel)

end

end Iot7688.Rbcfg
