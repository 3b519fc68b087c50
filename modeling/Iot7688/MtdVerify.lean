import Iot7688.MtdDump

/-!
mtd_verify beside mtd_write: the digest of the image file and that of as many bytes from
the start of the device. The blocks that mtd_write leaves out because they are bad are
read here like all others.
-/
namespace Iot7688.Mtd

open Lib

/-- The difference of the first bytes that differ. -/
def memcmp : List Byte → List Byte → ℤ
  | a :: as, b :: bs => if a = b then memcmp as bs else a.toNat - b.toNat
  | _, _ => 0

/-- One read of mtd_verify, into its buffer of 256 bytes. -/
def verifyRead (device : List Byte) (pos size : ℕ) : List Byte :=
  segment device pos (if size > 256 then 256 else size)

/-- The bytes that the loop of mtd_verify hashes, from a position on and up to a size. -/
def verifyBytes (device : List Byte) (pos size : ℕ) : List Byte :=
  if (verifyRead device pos size).length = 0 then []
  else if size - (verifyRead device pos size).length > 0 then
    verifyRead device pos size ++
      verifyBytes device (pos + (verifyRead device pos size).length)
        (size - (verifyRead device pos size).length)
  else verifyRead device pos size
termination_by size
decreasing_by omega

/-- mtd_verify on an open partition, with MD5 as any function to sixteen bytes. -/
def mtdVerify (md5 : List Byte → Vector Byte 16) (file device : List Byte) : ℤ :=
  memcmp (md5 file).toList (md5 (verifyBytes device 0 file.length)).toList

/-- What an operation that succeeds leaves on the partition; all blocks are programmed as
given. -/
def applyOp (erasesize : ℕ) (device : List Byte) : Op → List Byte
  | .erase _ block ok =>
      if ok then patch device (block * erasesize) (List.replicate erasesize 0xff) else device
  | .write _ pos _ bytes => patch device pos bytes

/-- The partition behind a log of operations on it. -/
def flash (erasesize : ℕ) (old : List Byte) (log : List Op) : List Byte :=
  log.foldl (applyOp erasesize) old

/-- No other input has the digest of the image. -/
def Unequalled (md5 : List Byte → Vector Byte 16) (image : List Byte) : Prop :=
  ∀ bytes, md5 bytes = md5 image → bytes = image

/-- Whatever the partition held, the image is verified after it was written, and not while
the good blocks hold something else. -/
def Agree (md5 : List Byte → Vector Byte 16) (c : Conf) (p : Part) (buf : List Byte)
    (reads : List (List Byte)) : Prop :=
  ∀ old : List Byte, old.length = p.blocks * c.erasesize →
    (∀ s, Reach c (start c p [] buf reads) s → Returned c s →
      mtdVerify md5 (buf ++ reads.flatten) (flash c.erasesize old s.log) = 0) ∧
    ((goodBytes p c.erasesize old 0).take (buf ++ reads.flatten).length ≠ buf ++ reads.flatten →
      mtdVerify md5 (buf ++ reads.flatten) old ≠ 0)

/-- No block that starts before the end of an image is bad. -/
def RowGood (p : Part) (erasesize size : ℕ) : Prop :=
  ∀ block, block < p.blocks → block * erasesize < size → p.marked block = false

/-- A write that succeeds lies in the partition. -/
def WritesInside (p : Part) (erasesize : ℕ) : Prop :=
  ∀ pos, p.writeOk pos = true → pos + erasesize ≤ p.blocks * erasesize

theorem memcmp_eq_zero {as bs : List Byte} (h : as.length = bs.length) :
    memcmp as bs = 0 ↔ as = bs := by
  induction as generalizing bs with
  | nil =>
    cases bs with
    | nil => exact iff_of_true rfl rfl
    | cons b bs => cases h
  | cons a as ih =>
    cases bs with
    | nil => cases h
    | cons b bs =>
      rw [memcmp]
      by_cases hab : a = b
      · rw [if_pos hab, ih (Nat.succ.inj h), hab]
        exact ⟨congrArg _, fun hcons => (List.cons.inj hcons).2⟩
      · rw [if_neg hab]
        refine iff_of_false (fun hzero => hab ?_) fun hcons => hab (List.cons.inj hcons).1
        exact UInt8.toNat_inj.mp (by omega)

theorem segment_append (l : List Byte) (off m n : ℕ) :
    segment l off m ++ segment l (off + m) n = segment l off (m + n) := by
  rw [Lib.segment, Lib.segment, Lib.segment, List.take_add, List.drop_drop]

theorem verifyBytes_eq (device : List Byte) (pos size : ℕ) :
    verifyBytes device pos size = segment device pos size := by
  induction size using Nat.strong_induction_on generalizing pos with
  | h size ih =>
    have hlen : (verifyRead device pos size).length =
        min (if size > 256 then 256 else size) (device.length - pos) := by
      rw [verifyRead, Lib.segment, List.length_take, List.length_drop]
    have hread : verifyRead device pos size =
        segment device pos (verifyRead device pos size).length := by
      rw [hlen, verifyRead, Lib.segment, Lib.segment, ← List.length_drop, List.take_eq_take_min]
    unfold verifyBytes
    by_cases hzero : (verifyRead device pos size).length = 0
    · rw [if_pos hzero]
      have hnil : (segment device pos size).length = 0 := by
        rw [Lib.segment, List.length_take, List.length_drop]
        split at hlen <;> omega
      exact (List.eq_nil_of_length_eq_zero hnil).symm
    · rw [if_neg hzero]
      split
      · rw [ih _ (by omega)]
        nth_rewrite 1 [hread]
        rw [segment_append]
        congr 1
        omega
      · have hall : (verifyRead device pos size).length = size := by
          split at hlen <;> omega
        rw [hread, hall]

section

variable {md5 : List Byte → Vector Byte 16} {image device : List Byte}

/-- The image is verified exactly when the device starts with it. -/
theorem mtdVerify_eq_zero (hmd5 : Unequalled md5 image) :
    mtdVerify md5 image device = 0 ↔ device.take image.length = image := by
  have hbytes : verifyBytes device 0 image.length = device.take image.length := by
    rw [verifyBytes_eq, Lib.segment, List.drop_zero]
  unfold mtdVerify
  rw [memcmp_eq_zero (by rw [Vector.length_toList, Vector.length_toList]), Vector.toList_inj, hbytes]
  exact ⟨fun h => hmd5 _ h.symm, fun h => by rw [h]⟩

end

/-- The state between two turns when there is only this partition: the image is in what was
written, in the buffer and in what is still to be read, and while no block that starts
before its end is bad the partition starts with what was written. -/
structure Written (c : Conf) (p : Part) (image old : List Byte) (s : St) : Prop where
  cur : s.cur = p
  next : s.next = []
  offset : s.offset = 0
  pos : s.pos = s.w + s.skipBadBlocks
  idle : c.noErase = true → s.skipBadBlocks = 0
  wAligned : c.erasesize ∣ s.w
  eAligned : c.erasesize ∣ s.e
  ahead : c.noErase = false → s.w + s.skipBadBlocks ≤ s.e
  inside : s.e ≤ p.blocks * c.erasesize ∧ s.w ≤ p.blocks * c.erasesize
  room : s.buf.length ≤ c.erasesize
  full : s.filled = true → s.buf.length = c.erasesize
  length : (payload s.log).length = s.w
  data : padded c.erasesize (payload s.log ++ s.buf ++ s.image.flatten) = padded c.erasesize image
  row : RowGood p c.erasesize image.length → s.skipBadBlocks = 0 ∧
    (flash c.erasesize old s.log).length = p.blocks * c.erasesize ∧
    (flash c.erasesize old s.log).take s.w = payload s.log

section

variable {c : Conf} {p : Part} {image old : List Byte} {s s' : St}

theorem flash_snoc (erasesize : ℕ) (old : List Byte) (log : List Op) (op : Op) :
    flash erasesize old (log ++ [op]) = applyOp erasesize (flash erasesize old log) op := by
  rw [flash, List.foldl_append]
  rfl

theorem Written.start {buf : List Byte} {reads : List (List Byte)}
    (hold : old.length = p.blocks * c.erasesize) (hoff : c.partOffset = 0)
    (hbuf : buf.length ≤ c.erasesize) :
    Written c p (buf ++ reads.flatten) old (start c p [] buf reads) where
  cur := rfl
  next := rfl
  offset := rfl
  pos := hoff
  idle _ := rfl
  wAligned := Nat.dvd_zero _
  eAligned := Nat.dvd_zero _
  ahead _ := le_rfl
  inside := ⟨Nat.zero_le _, Nat.zero_le _⟩
  room := hbuf
  full h := by cases h
  length := rfl
  data := rfl
  row _ := ⟨rfl, hold, rfl⟩

theorem Written.fill (h : Written c p image old s) (hstep : fillStep c s = .cont s') :
    Written c p image old s' := by
  obtain ⟨_, hle, _⟩ := fillBuffer_spec c.erasesize s.image s.buf h.room
  unfold fillStep at hstep
  dsimp only at hstep
  generalize hr : fillBuffer c.erasesize s.image s.buf = r at hstep hle
  split at hstep
  · cases hstep
  · rename_i hne
    obtain rfl := Next.cont.inj hstep
    have hlen : (r.1 ++ List.replicate (c.erasesize - r.1.length) (0xff : Byte)).length =
        c.erasesize := by
      rw [List.length_append, List.length_replicate]
      omega
    have hfront : c.erasesize ∣ (payload s.log).length := h.length ▸ h.wAligned
    exact
      { h with
        room := hlen.le
        full := fun _ => hlen
        data := (padded_fill hfront h.room hr hne).trans h.data }

/-- A full buffer has bytes of the image. -/
theorem Written.before_end (h : Written c p image old s) (hE : 0 < c.erasesize)
    (hfilled : s.filled = true) : s.w < image.length := by
  have hlen := congrArg List.length h.data
  have hpad := Nat.mod_lt (c.erasesize - image.length % c.erasesize) hE
  have hfull := h.full hfilled
  have hw := h.length
  simp only [padded, List.length_append, List.length_replicate] at hlen
  omega

/-- The next block starts where the next write goes, or is bad. -/
theorem Written.cursor (h : Written c p image old s) (hfilled : s.filled = true)
    (hneeds : NeedsErase c s) (hskip : s.skipBadBlocks = 0) : s.e = s.w := by
  have hlt := hneeds.2
  rw [h.full hfilled, hskip] at hlt
  have hle := h.ahead hneeds.1
  obtain ⟨i, hi⟩ := h.eAligned
  obtain ⟨j, hj⟩ := h.wAligned
  have hij : i < j + 1 := by
    by_contra hge
    have hmul : c.erasesize * (j + 1) ≤ c.erasesize * i := Nat.mul_le_mul_left _ (by omega)
    rw [Nat.mul_succ] at hmul
    omega
  have hmul : c.erasesize * i ≤ c.erasesize * j := Nat.mul_le_mul_left _ (by omega)
  omega

theorem marked_of_bad {block : ℕ} (h : mtdBlockIsBad p block = some true) :
    block < p.blocks ∧ p.marked block = true := by
  unfold mtdBlockIsBad at h
  unfold Part.marked
  split at h
  · next hnand =>
    split at h
    · next hlt => exact ⟨hlt, by rw [hnand, Option.some_inj.mp h]; rfl⟩
    · cases h
  · cases h

theorem Written.erase (h : Written c p image old s) (hE : 0 < c.erasesize)
    (hfilled : s.filled = true) (hneeds : NeedsErase c s) (hstep : eraseStep c s = .cont s') :
    Written c p image old s' := by
  have hblock : s.e / c.erasesize * c.erasesize = s.e := Nat.div_mul_cancel h.eAligned
  have hnext : s.e / c.erasesize < p.blocks → s.e + c.erasesize ≤ p.blocks * c.erasesize := by
    intro hlt
    have hmul : (s.e / c.erasesize + 1) * c.erasesize ≤ p.blocks * c.erasesize :=
      Nat.mul_le_mul_right _ hlt
    rwa [Nat.succ_mul, hblock] at hmul
  have hahead := h.ahead hneeds.1
  have hpos := h.pos
  obtain rfl : s.cur = p := h.cur
  unfold eraseStep at hstep
  dsimp only at hstep
  split at hstep
  · cases hstep
  · next hbad =>
    have hmarked := marked_of_bad hbad
    obtain rfl := Next.cont.inj hstep
    refine
      { h with
        pos := by dsimp only; omega
        idle := fun hn => absurd (hneeds.1.symm.trans hn) (by simp)
        eAligned := Nat.dvd_add h.eAligned (Nat.dvd_refl _)
        ahead := fun _ => by dsimp only; omega
        inside := ⟨hnext hmarked.1, h.inside.2⟩
        row := fun hrow => ?_ }
    obtain ⟨hskip, _, _⟩ := h.row hrow
    have hgood := hrow _ hmarked.1 (by
      rw [hblock, h.cursor hfilled hneeds hskip]
      exact h.before_end hE hfilled)
    rw [hmarked.2] at hgood
    cases hgood
  · split at hstep
    · next hok =>
      have hlt : s.e / c.erasesize < s.cur.blocks := of_decide_eq_true (Bool.and_eq_true_iff.mp hok).1
      obtain rfl := Next.cont.inj hstep
      refine
        { h with
          eAligned := Nat.dvd_add h.eAligned (Nat.dvd_refl _)
          ahead := fun _ => by dsimp only; omega
          inside := ⟨hnext hlt, h.inside.2⟩
          length := ?_
          data := ?_
          row := fun hrow => ?_ }
      · rw [payload_snoc, Op.bytes, List.append_nil]
        exact h.length
      · rw [payload_snoc, Op.bytes, List.append_nil]
        exact h.data
      · obtain ⟨hskip, hlength, htake⟩ := h.row hrow
        have hend := hnext hlt
        have hpatch : s.e + (List.replicate c.erasesize (0xff : Byte)).length ≤
            (flash c.erasesize old s.log).length := by
          rwa [List.length_replicate, hlength]
        dsimp only
        rw [flash_snoc, applyOp, if_pos rfl, hblock, payload_snoc, Op.bytes, List.append_nil]
        exact ⟨hskip, (length_patch hpatch).trans hlength,
          (take_patch _ (by omega) (by omega)).trans htake⟩
    · unfold leavePart at hstep
      rw [if_pos h.next] at hstep
      cases hstep

theorem Written.write (h : Written c p image old s) (hwrites : WritesInside p c.erasesize)
    (hfilled : s.filled = true) (hneeds : ¬NeedsErase c s) (hstep : writeStep c s = .cont s') :
    Written c p image old s' := by
  have hfull := h.full hfilled
  have hpos := h.pos
  obtain rfl : s.cur = p := h.cur
  unfold writeStep at hstep
  rw [bufBytes_whole c h.offset] at hstep
  dsimp only at hstep
  split at hstep
  · next hok =>
    obtain rfl := Next.cont.inj hstep
    have hahead (hn : c.noErase = false) : s.w + c.erasesize + s.skipBadBlocks ≤ s.e := by
      have hge : ¬s.e < s.w + s.buf.length + s.skipBadBlocks := fun hlt => hneeds ⟨hn, hlt⟩
      omega
    have hend : s.w + c.erasesize ≤ s.cur.blocks * c.erasesize := by
      cases hn : c.noErase with
      | true =>
        have hinside := hwrites _ hok
        omega
      | false =>
        have hle := hahead hn
        have hdevice := h.inside.1
        omega
    refine
      { h with
        offset := rfl
        pos := by dsimp only; omega
        wAligned := by dsimp only; rw [hfull]; exact Nat.dvd_add h.wAligned (Nat.dvd_refl _)
        ahead := fun hn => by dsimp only; rw [hfull]; exact hahead hn
        inside := ⟨h.inside.1, by dsimp only; omega⟩
        room := Nat.zero_le _
        full := fun hfalse => by cases hfalse
        length := ?_
        data := ?_
        row := fun hrow => ?_ }
    · rw [payload_snoc, List.length_append, h.length]
      rfl
    · rw [payload_snoc, List.append_nil]
      exact h.data
    · obtain ⟨hskip, hlength, htake⟩ := h.row hrow
      have hplace : s.pos = s.w := by omega
      have hpatch : s.w + s.buf.length ≤ (flash c.erasesize old s.log).length := by omega
      dsimp only
      rw [flash_snoc, applyOp, hplace, payload_snoc, ← htake]
      exact ⟨hskip, (length_patch hpatch).trans hlength, take_patch_end _ (by omega)⟩
  · cases hstep

theorem Written.step (h : Written c p image old s) (hE : 0 < c.erasesize)
    (hwrites : WritesInside p c.erasesize) (hstep : step c s = .cont s') :
    Written c p image old s' := by
  unfold Mtd.step at hstep
  split at hstep
  · exact h.fill hstep
  · next hfilled =>
    rw [Bool.not_eq_false] at hfilled
    split at hstep
    · next hneeds => exact h.erase hE hfilled hneeds hstep
    · next hneeds => exact h.write hwrites hfilled hneeds hstep

theorem reach_written {buf : List Byte} {reads : List (List Byte)} (hE : 0 < c.erasesize)
    (hwrites : WritesInside p c.erasesize) (hoff : c.partOffset = 0)
    (hold : old.length = p.blocks * c.erasesize) (hbuf : buf.length ≤ c.erasesize)
    (hreach : Reach c (start c p [] buf reads) s) : Written c p (buf ++ reads.flatten) old s :=
  run_preserves (fun _ _ h hstep => h.step hE hwrites hstep) hreach (Written.start hold hoff hbuf)

/-- When mtd_write returns 0 all of the image was written. -/
theorem Written.returned (h : Written c p image old s) (hE : 0 < c.erasesize)
    (hret : Returned c s) : payload s.log = padded c.erasesize image := by
  obtain ⟨s', hstop⟩ := hret
  obtain ⟨_, hempty⟩ := step_ret hstop
  obtain ⟨hdata, _, hend⟩ := fillBuffer_spec c.erasesize s.image s.buf h.room
  rw [hend (by rw [hempty]; exact hE), hempty, List.flatten_nil, List.append_nil] at hdata
  rw [← h.data, List.append_assoc, ← hdata, List.append_nil]
  exact (padded_whole (h.length ▸ h.wAligned)).symm

/-- A run that returns 0: the image is not longer than the partition, and the partition starts
with it when no bad block does before its end. -/
theorem Written.starts_with (h : Written c p image old s) (hE : 0 < c.erasesize)
    (hret : Returned c s) : image.length ≤ p.blocks * c.erasesize ∧
      (RowGood p c.erasesize image.length →
        (flash c.erasesize old s.log).take image.length = image) := by
  have hpayload := h.returned hE hret
  have hlength := congrArg List.length hpayload
  rw [h.length, padded, List.length_append] at hlength
  have hdevice := h.inside.2
  refine ⟨by omega, fun hrow => ?_⟩
  obtain ⟨_, _, htake⟩ := h.row hrow
  have hcut := congrArg (List.take image.length) htake
  rwa [List.take_take, Nat.min_eq_left (by omega), hpayload, padded,
    List.take_append_of_le_length le_rfl, List.take_length] at hcut

end

theorem ret_log {c : Conf} {s s' : St} (hstep : step c s = .ret s') : s'.log = s.log := by
  obtain ⟨hfilled, hempty⟩ := step_ret hstep
  unfold step fillStep at hstep
  dsimp only at hstep
  rw [if_pos hfilled, if_pos hempty] at hstep
  rw [← Next.ret.inj hstep]

section

variable {p : Part} {erasesize : ℕ} {image old : List Byte}

theorem goodBytes_all (hold : old.length = p.blocks * erasesize) :
    goodBytes p erasesize old 0 =
      (unmarked erasesize p.marked 0 p.blocks).map (old.getD · 0) := by
  rw [goodBytes_eq_map hold, Nat.zero_div, Nat.sub_zero]

/-- Without a bad block in front of it, the good blocks hold what the partition starts with. -/
theorem goodBytes_of_row {size : ℕ} (hold : old.length = p.blocks * erasesize)
    (hsize : size ≤ p.blocks * erasesize) (hrow : RowGood p erasesize size) :
    (goodBytes p erasesize old 0).take size = old.take size := by
  have hplaces := @take_unmarked_row erasesize p.marked 0 p.blocks size hsize fun i _ hi hlt =>
    hrow i (by omega) (by omega)
  rw [goodBytes_all hold, ← List.map_take, hplaces]
  apply List.ext_getElem?
  intro i
  rw [List.getElem?_map, List.getElem?_take]
  by_cases hi : i < size
  · rw [if_pos hi, List.getElem?_range' hi, Option.map_some, List.getD_eq_getElem?_getD,
      List.getElem?_eq_getElem (by omega), List.getElem?_eq_getElem (by omega)]
    simp
  · rw [if_neg hi, List.getElem?_eq_none (by rw [List.length_range']; omega)]
    rfl

theorem succ_ne_self (b : Byte) : b + 1 ≠ b := by
  intro h
  have hnat := congrArg UInt8.toNat h
  have hlt := b.toNat_lt
  rw [UInt8.toNat_add] at hnat
  have hone : (1 : Byte).toNat = 1 := rfl
  omega

/-- With a bad block in front of its end there is a partition that starts with the image and
whose good blocks hold something else. -/
theorem exists_row_not_good (hE : 0 < erasesize) (hsize : image.length ≤ p.blocks * erasesize)
    {block : ℕ} (hbad : p.marked block = true) (hblock : block * erasesize < image.length) :
    ∃ old : List Byte, old.length = p.blocks * erasesize ∧ old.take image.length = image ∧
      (goodBytes p erasesize old 0).take image.length ≠ image := by
  have hlast : image.length - 1 < image.length := by omega
  refine ⟨image ++ List.replicate (p.blocks * erasesize - image.length)
    (image[image.length - 1] + 1), ?_, ?_, ?_⟩
  · rw [List.length_append, List.length_replicate]
    omega
  · rw [List.take_append_of_le_length le_rfl, List.take_length]
  · intro heq
    generalize hold : image ++ List.replicate (p.blocks * erasesize - image.length)
      (image[image.length - 1] + 1) = old at heq
    have hlength : old.length = p.blocks * erasesize := by
      rw [← hold, List.length_append, List.length_replicate]
      omega
    -- the last byte of the image would come from behind its place, where another byte is
    have hith := congrArg (·[image.length - 1]?) heq
    simp only [List.getElem?_take, if_pos hlast, List.getElem?_eq_getElem hlast,
      goodBytes_all hlength, List.getElem?_map, Option.map_eq_some_iff] at hith
    obtain ⟨x, hx, hbyte⟩ := hith
    have hbehind := lt_of_unmarked hbad (Nat.zero_le _) (by omega) hx
    have hin := unmarked_bounds (List.mem_of_getElem? hx)
    rw [Nat.zero_add] at hin
    rw [List.getD_eq_getElem?_getD, ← hold, List.getElem?_append_right (by omega),
      List.getElem?_replicate_of_lt (by omega)] at hbyte
    exact succ_ne_self _ hbyte

end

variable {md5 : List Byte → Vector Byte 16} {c : Conf} {p : Part} {buf : List Byte}
  {reads : List (List Byte)}

/-- An image that mtd_write wrote is verified, and no other one, exactly when no bad block
starts before the end of the image, or when it does not fit at all. -/
theorem mtd_write_verify_iff (hE : 0 < c.erasesize) (hoff : c.partOffset = 0)
    (hbuf : buf.length ≤ c.erasesize) (hwrites : WritesInside p c.erasesize)
    (hmd5 : Unequalled md5 (buf ++ reads.flatten)) :
    Agree md5 c p buf reads ↔ p.blocks * c.erasesize < (buf ++ reads.flatten).length ∨
      RowGood p c.erasesize (buf ++ reads.flatten).length := by
  constructor
  · intro hagree
    by_contra hno
    push Not at hno
    obtain ⟨hsize, hrow⟩ := hno
    have hbad : ∃ block, p.marked block = true ∧
        block * c.erasesize < (buf ++ reads.flatten).length := by
      by_contra hnone
      exact hrow fun block _ hlt => by
        cases hmark : p.marked block with
        | false => rfl
        | true => exact absurd ⟨block, hmark, hlt⟩ hnone
    obtain ⟨block, hmarked, hblock⟩ := hbad
    obtain ⟨old, hold, hstarts, hother⟩ := exists_row_not_good hE hsize hmarked hblock
    exact (hagree old hold).2 hother ((mtdVerify_eq_zero hmd5).mpr hstarts)
  · intro hcond old hold
    refine ⟨fun s hreach hret => ?_, fun hother hverified => hother ?_⟩
    · have hwritten := reach_written hE hwrites hoff hold hbuf hreach
      obtain ⟨hsize, hstarts⟩ := hwritten.starts_with hE hret
      exact (mtdVerify_eq_zero hmd5).mpr (hstarts (hcond.resolve_left (by omega)))
    · have hstarts := (mtdVerify_eq_zero hmd5).mp hverified
      have hsize : (buf ++ reads.flatten).length ≤ p.blocks * c.erasesize := by
        have hcut := congrArg List.length hstarts
        rw [List.length_take] at hcut
        omega
      rw [goodBytes_of_row hold hsize (hcond.resolve_left (by omega)), hstarts]

/-- A NAND partition of three blocks of four bytes, one of them bad. -/
def oneBad (block : ℕ) : Part where
  opens := true
  nand := true
  blocks := 3
  bad b := decide (b = block)
  eraseOk _ := true
  writeOk pos := decide (pos + 4 ≤ 12)

/-- MD5 of the bytes 1 to 4, and that of four bytes 0xff for all others. -/
def smallDigest (bytes : List Byte) : Vector Byte 16 :=
  if bytes = [1, 2, 3, 4] then
    #v[0x08, 0xd6, 0xc0, 0x5a, 0x21, 0x51, 0x2a, 0x79, 0xa1, 0xdf, 0xeb, 0x9d, 0x2a, 0x8f, 0x26, 0x2f]
  else
    #v[0xa5, 0x4f, 0x00, 0x41, 0xa9, 0xe1, 0x5b, 0x05, 0x0f, 0x25, 0xc4, 0x63, 0xf1, 0xdb, 0x74, 0x49]

theorem smallDigest_unequalled : Unequalled smallDigest [1, 2, 3, 4] := by
  intro bytes h
  by_contra hne
  unfold smallDigest at h
  rw [if_neg hne, if_pos rfl] at h
  exact absurd h (by decide)

/-- The bad block is behind the image. -/
theorem mtd_write_verify_second_bad : Agree smallDigest (smallConf 0) (oneBad 1) [] [[1, 2, 3, 4]] := by
  refine (mtd_write_verify_iff (by decide) rfl (by decide) (fun pos h => of_decide_eq_true h)
    smallDigest_unequalled).mpr (Or.inr fun block _ hlt => decide_eq_false ?_)
  change block * 4 < 4 at hlt
  omega

/-- The first block is bad: the image is written to the second one, and the bad one is
compared with it. -/
theorem bad_block_fails_verify : ¬Agree smallDigest (smallConf 0) (oneBad 0) [] [[1, 2, 3, 4]] := by
  intro h
  have hrun : (run (smallConf 0) 20 (start (smallConf 0) (oneBad 0) [] [] [[1, 2, 3, 4]])).map
      (fun r => (r.1, r.2.log)) = some (true, [.erase 0 1 true, .write 0 4 0 [1, 2, 3, 4]]) := by
    decide +kernel
  obtain ⟨⟨_, s'⟩, hs', hpair⟩ := Option.map_eq_some_iff.mp hrun
  obtain ⟨rfl, hlog⟩ := Prod.mk.inj hpair
  obtain ⟨s, hreach, hret⟩ := run_ret hs'
  have hverified := (h (List.replicate 12 0xff) rfl).1 s hreach ⟨s', hret⟩
  have hstarts := (mtdVerify_eq_zero smallDigest_unequalled).mp hverified
  rw [← ret_log hret, hlog] at hstarts
  exact absurd hstarts (by decide)

end Iot7688.Mtd
