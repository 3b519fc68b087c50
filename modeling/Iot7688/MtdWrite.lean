import Iot7688.Lib.Memory
import Iot7688.Lib.Run

/-!
mtd_write of the mtd tool, without jffs2 data and without a FIS table: one step is
one turn of a loop. The image comes in the pieces that read delivers; an empty piece
is an interrupted read. Behind the buffer lies memory the program does not own. The erase
cursor is one good block ahead of the file position at most, as long as no partition is left
after a bad block of it was skipped. With an offset, it starts at block 0 all the same.
-/
namespace Iot7688.Mtd

open Lib

/-- A partition: whether it opens, its blocks, and what its ioctls and writes return. -/
structure Part where
  opens : Bool
  nand : Bool
  blocks : ℕ
  bad : ℕ → Bool
  eraseOk : ℕ → Bool
  writeOk : ℕ → Bool

structure Conf where
  erasesize : ℕ
  noErase : Bool
  partOffset : ℕ
  heap : ℕ → Byte

/-- MEMERASE of a block with its result; a write of `bytes` at a position, taken from
`offset` in the buffer. -/
inductive Op
  | erase (part block : ℕ) (ok : Bool)
  | write (part pos offset : ℕ) (bytes : List Byte)
deriving DecidableEq

structure St where
  part : ℕ
  cur : Part
  next : List Part
  image : List (List Byte)
  buf : List Byte
  offset : ℕ
  w : ℕ
  e : ℕ
  skipBadBlocks : ℕ
  pos : ℕ
  filled : Bool
  log : List Op

inductive Next
  | cont (s : St)
  | exit (s : St)
  | ret (s : St)

/-- The log of a step that ends the run. -/
def Next.stopLog : Next → Option (List Op)
  | .cont _ => none
  | .exit s => some s.log
  | .ret s => some s.log

/-- mtd_block_is_bad; no result where the ioctl fails and the program exits. -/
def mtdBlockIsBad (p : Part) (block : ℕ) : Option Bool :=
  if p.nand then (if block < p.blocks then some (p.bad block) else none) else some false

/-- mtd_erase_block succeeds. -/
def mtdEraseBlock (p : Part) (block : ℕ) : Bool := decide (block < p.blocks) && p.eraseOk block

/-- The loop that reads until the buffer is full or the image ends. -/
def fillBuffer (erasesize : ℕ) : List (List Byte) → List Byte → List Byte × List (List Byte)
  | [], buf => (buf, [])
  | r :: rs, buf =>
      if erasesize ≤ buf.length then (buf, r :: rs)
      else if r.length ≤ erasesize - buf.length then fillBuffer erasesize rs (buf ++ r)
      else (buf ++ r.take (erasesize - buf.length), r.drop (erasesize - buf.length) :: rs)

section

variable (c : Conf)

/-- The bytes of `write(fd, buf + offset, len)`. -/
def bufBytes (s : St) (len : ℕ) : List Byte :=
  (List.range len).map fun i => s.buf.getD (s.offset + i) (c.heap (s.offset + i))

/-- From the label resume on, for the partitions still to be written. -/
def resume (s : St) : List Part → Next
  | [] => .exit s
  | p :: ps =>
      if p.opens then
        .cont { s with
          part := s.part + 1, cur := p, next := ps, w := 0, e := 0, pos := c.partOffset }
      else .exit s

/-- The turn of the outer loop up to the padding of the buffer. -/
def fillStep (s : St) : Next :=
  let r := fillBuffer c.erasesize s.image s.buf
  if r.1 = [] then .ret { s with image := r.2 }
  else .cont { s with
    image := r.2
    buf := r.1 ++ List.replicate (c.erasesize - r.1.length) 0xff
    filled := true }

/-- MEMERASE failed: exit(1), or on to the next partition with the buffer as it is. -/
def leavePart (s : St) : Next :=
  if s.next = [] then .exit s
  else if s.w < s.e then
    let op := Op.write s.part s.pos s.offset (bufBytes c s (s.e - s.w))
    resume c { s with offset := s.e - s.w, log := s.log ++ [op] } s.next
  else resume c s s.next

/-- One turn of the loop that erases. -/
def eraseStep (s : St) : Next :=
  let block := s.e / c.erasesize
  match mtdBlockIsBad s.cur block with
  | none => .exit s
  | some true => .cont { s with
      skipBadBlocks := s.skipBadBlocks + c.erasesize
      e := s.e + c.erasesize
      pos := s.pos + c.erasesize }
  | some false =>
      if mtdEraseBlock s.cur block then
        .cont { s with
          e := s.e + c.erasesize
          log := s.log ++ [.erase s.part block true] }
      else leavePart c { s with log := s.log ++ [.erase s.part block false] }

/-- The write of the block; a short write exits. -/
def writeStep (s : St) : Next :=
  let s' := { s with
    log := s.log ++ [.write s.part s.pos s.offset (bufBytes c s s.buf.length)] }
  if s.cur.writeOk s.pos then
    .cont { s' with
      pos := s.pos + s.buf.length
      w := s.w + s.buf.length
      buf := []
      offset := 0
      filled := false }
  else .exit s'

/-- The next block of the partition is to be erased. -/
def NeedsErase (s : St) : Prop :=
  c.noErase = false ∧ s.e < s.w + s.buf.length + s.skipBadBlocks

instance (s : St) : Decidable (NeedsErase c s) := inferInstanceAs (Decidable (_ ∧ _))

def step (s : St) : Next :=
  if s.filled = false then fillStep c s
  else if NeedsErase c s then eraseStep c s
  else writeStep c s

/-- mtd_write after the first partition is open. -/
def start (cur : Part) (next : List Part) (buf : List Byte) (image : List (List Byte)) : St where
  part := 0
  cur := cur
  next := next
  image := image
  buf := buf
  offset := 0
  w := 0
  e := 0
  skipBadBlocks := 0
  pos := c.partOffset
  filled := false
  log := []

/-- A run of the loops. -/
def Reach : St → St → Prop := Relation.ReflTransGen fun s s' => step c s = .cont s'

/-- mtd_write has ended, with 0 or by exit(1). -/
def Returned (s : St) : Prop := ∃ s', step c s = .ret s'

/-- Execution, for a number of steps. -/
def run : ℕ → St → Option (Bool × St)
  | 0, _ => none
  | n + 1, s =>
      match step c s with
      | .cont s => run n s
      | .exit s => some (false, s)
      | .ret s => some (true, s)

/-- A property of every state of a run of at most that many steps. -/
def holdsOnRun (P : St → Bool) : ℕ → St → Bool
  | 0, _ => false
  | n + 1, s =>
      P s && match step c s with
        | .cont s => holdsOnRun P n s
        | .exit _ => true
        | .ret _ => true

end

variable {c : Conf}

theorem run_ret {n : ℕ} {s s' : St} (h : run c n s = some (true, s')) :
    ∃ t, Reach c s t ∧ step c t = .ret s' := by
  induction n generalizing s with
  | zero => exact absurd h (by simp [run])
  | succ n ih =>
    rw [run] at h
    cases hstep : step c s with
    | cont t =>
      rw [hstep] at h
      obtain ⟨u, hreach, hret⟩ := ih h
      exact ⟨u, Relation.ReflTransGen.head hstep hreach, hret⟩
    | exit t =>
      rw [hstep] at h
      exact absurd h (by simp)
    | ret t =>
      rw [hstep] at h
      obtain rfl := (Prod.mk.inj (Option.some.inj h)).2
      exact ⟨s, Relation.ReflTransGen.refl, hstep⟩

theorem holdsOnRun_reach {P : St → Bool} {n : ℕ} {s t : St} (h : holdsOnRun c P n s = true)
    (hreach : Reach c s t) : P t = true := by
  induction n generalizing s with
  | zero => exact absurd h (by simp [holdsOnRun])
  | succ n ih =>
    rw [holdsOnRun, Bool.and_eq_true] at h
    rcases Relation.ReflTransGen.cases_head hreach with rfl | ⟨u, hstep, hrest⟩
    · exact h.1
    · have hnext := h.2
      rw [hstep] at hnext
      exact ih hnext hrest

/-- An erase fails and the next partition is taken, after a bad block was skipped. -/
def LeavesDirty (c : Conf) (s : St) : Prop :=
  s.filled = true ∧ NeedsErase c s ∧ mtdBlockIsBad s.cur (s.e / c.erasesize) = some false ∧
    mtdEraseBlock s.cur (s.e / c.erasesize) = false ∧ s.next ≠ [] ∧ 0 < s.skipBadBlocks

/-- A block is erased although the writes start at an offset. -/
def ErasesAhead (c : Conf) (s : St) : Prop :=
  s.filled = true ∧ NeedsErase c s ∧ mtdBlockIsBad s.cur (s.e / c.erasesize) = some false ∧
    mtdEraseBlock s.cur (s.e / c.erasesize) = true ∧ 0 < c.partOffset

def StepOk (c : Conf) (s : St) : Prop := ¬LeavesDirty c s ∧ ¬ErasesAhead c s

instance (c : Conf) (s : St) : Decidable (LeavesDirty c s) :=
  inferInstanceAs (Decidable (_ ∧ _ ∧ _ ∧ _ ∧ _ ∧ _))

instance (c : Conf) (s : St) : Decidable (ErasesAhead c s) :=
  inferInstanceAs (Decidable (_ ∧ _ ∧ _ ∧ _ ∧ _))

instance (c : Conf) (s : St) : Decidable (StepOk c s) := inferInstanceAs (Decidable (_ ∧ _))

/-- A block that its partition does not report as bad. -/
def Good (parts : List Part) (i block : ℕ) : Prop :=
  ∃ p, parts[i]? = some p ∧ mtdBlockIsBad p block = some false

/-- A write of one whole erase block from inside the buffer, behind all earlier ones,
to a good block that was erased before. -/
structure WriteOk (erasesize : ℕ) (parts : List Part) (before : List Op) (i pos offset : ℕ)
    (bytes : List Byte) : Prop where
  whole : bytes.length = erasesize
  aligned : erasesize ∣ pos
  inside : offset + bytes.length ≤ erasesize
  good : Good parts i (pos / erasesize)
  erased : .erase i (pos / erasesize) true ∈ before
  later : ∀ j pos' offset' bytes', .write j pos' offset' bytes' ∈ before →
    j < i ∨ j = i ∧ pos' < pos

def OpOk (erasesize : ℕ) (parts : List Part) (before : List Op) : Op → Prop
  | .erase i block _ => Good parts i block
  | .write i pos offset bytes => WriteOk erasesize parts before i pos offset bytes

def Op.bytes : Op → List Byte
  | .erase _ _ _ => []
  | .write _ _ _ bytes => bytes

def payload (log : List Op) : List Byte := log.flatMap Op.bytes

/-- Padded with 0xff to whole erase blocks. -/
def padded (erasesize : ℕ) (image : List Byte) : List Byte :=
  image ++ List.replicate ((erasesize - image.length % erasesize) % erasesize) 0xff

structure Layout (erasesize : ℕ) (parts : List Part) (image : List Byte) (log : List Op) :
    Prop where
  ops : Justified (OpOk erasesize parts) log
  data : payload log = padded erasesize image

/-- Every block that is written was erased before, and every erased block lies between
the offset and the last block that is written. -/
structure Discipline (c : Conf) (log : List Op) : Prop where
  erasedFirst : Justified (fun before op => ∀ i pos offset bytes, op = .write i pos offset bytes →
    ∀ block, pos < (block + 1) * c.erasesize → block * c.erasesize < pos + bytes.length →
      .erase i block true ∈ before) log
  between : ∀ i block, .erase i block true ∈ log → c.partOffset ≤ block * c.erasesize ∧
    ∃ pos offset bytes, .write i pos offset bytes ∈ log ∧ block * c.erasesize ≤ pos

/-- The state between two turns, with the whole image. -/
structure Inv (c : Conf) (parts : List Part) (image : List Byte) (s : St) : Prop where
  cur : parts[s.part]? = some s.cur
  next : s.next = parts.drop (s.part + 1)
  offset : s.offset = 0
  pos : s.pos = c.partOffset + s.w + s.skipBadBlocks
  wAligned : c.erasesize ∣ s.w
  skipAligned : c.erasesize ∣ s.skipBadBlocks
  cursor : s.e = s.w + s.skipBadBlocks ∨
    s.filled = true ∧ s.e = s.w + s.skipBadBlocks + c.erasesize ∧ c.partOffset = 0 ∧
      .erase s.part (s.pos / c.erasesize) true ∈ s.log ∧ Good parts s.part (s.pos / c.erasesize)
  room : s.buf.length ≤ c.erasesize
  full : s.filled = true → s.buf.length = c.erasesize
  ops : Justified (OpOk c.erasesize parts) s.log
  dataAligned : c.erasesize ∣ (payload s.log).length
  data : padded c.erasesize (payload s.log ++ s.buf ++ s.image.flatten) = padded c.erasesize image
  later : ∀ i pos offset bytes, .write i pos offset bytes ∈ s.log →
    i < s.part ∨ i = s.part ∧ pos < s.pos
  ahead : 0 < c.partOffset → ∀ op ∈ s.log, ∃ i block, op = .erase i block false
  erases : ∀ i block, .erase i block true ∈ s.log →
    (∃ pos offset bytes, .write i pos offset bytes ∈ s.log ∧ block * c.erasesize ≤ pos) ∨
      i = s.part ∧ block * c.erasesize = s.pos ∧ s.e = s.w + s.skipBadBlocks + c.erasesize

theorem fillBuffer_spec (erasesize : ℕ) (image : List (List Byte)) (buf : List Byte)
    (hroom : buf.length ≤ erasesize) :
    let r := fillBuffer erasesize image buf
    r.1 ++ r.2.flatten = buf ++ image.flatten ∧ r.1.length ≤ erasesize ∧
      (r.1.length < erasesize → r.2 = []) := by
  induction image generalizing buf with
  | nil => exact ⟨rfl, hroom, fun _ => rfl⟩
  | cons r rs ih =>
    unfold fillBuffer
    by_cases hfull : erasesize ≤ buf.length
    · rw [if_pos hfull]
      exact ⟨rfl, hroom, fun hlt => absurd hlt (not_lt.mpr hfull)⟩
    · rw [if_neg hfull]
      by_cases hfit : r.length ≤ erasesize - buf.length
      · rw [if_pos hfit]
        obtain ⟨hdata, hle, hend⟩ := ih (buf ++ r) (by rw [List.length_append]; omega)
        refine ⟨?_, hle, hend⟩
        rw [hdata, List.flatten_cons, List.append_assoc]
      · rw [if_neg hfit]
        have hlen : (buf ++ r.take (erasesize - buf.length)).length = erasesize := by
          rw [List.length_append, List.length_take]
          omega
        refine ⟨?_, le_of_eq hlen, fun hlt => absurd hlt (not_lt.mpr (le_of_eq hlen.symm))⟩
        dsimp only
        rw [List.flatten_cons, List.flatten_cons, List.append_assoc, ← List.append_assoc (r.take _),
          List.take_append_drop]

/-- Padding the last block by hand is the padding of the whole. -/
theorem padded_block {erasesize : ℕ} {front block : List Byte} (hfront : erasesize ∣ front.length)
    (hpos : 0 < block.length) (hle : block.length ≤ erasesize) :
    padded erasesize (front ++ (block ++ List.replicate (erasesize - block.length) 0xff)) =
      padded erasesize (front ++ block) := by
  obtain ⟨k, hk⟩ := hfront
  have hwhole : (front ++ (block ++ List.replicate (erasesize - block.length) (0xff : Byte))).length %
      erasesize = 0 := by
    rw [List.length_append, List.length_append, List.length_replicate, hk,
      show block.length + (erasesize - block.length) = erasesize by omega, ← Nat.mul_succ]
    exact Nat.mul_mod_right _ _
  have hpad : (erasesize - (front ++ block).length % erasesize) % erasesize =
      erasesize - block.length := by
    rw [List.length_append, hk, Nat.mul_add_mod]
    rcases Nat.eq_or_lt_of_le hle with heq | hlt
    · rw [heq, Nat.mod_self, Nat.sub_zero, Nat.mod_self, Nat.sub_self]
    · rw [Nat.mod_eq_of_lt hlt, Nat.mod_eq_of_lt (by omega)]
  unfold padded
  rw [hwhole, hpad, Nat.sub_zero, Nat.mod_self, List.replicate_zero, List.append_nil,
    List.append_assoc]

/-- The filled buffer, padded by hand, and what is still to be read. -/
theorem padded_fill {erasesize : ℕ} {front buf : List Byte} {image : List (List Byte)}
    (hfront : erasesize ∣ front.length) (hroom : buf.length ≤ erasesize)
    {r : List Byte × List (List Byte)} (hr : fillBuffer erasesize image buf = r) (hne : r.1 ≠ []) :
    padded erasesize
        (front ++ (r.1 ++ List.replicate (erasesize - r.1.length) 0xff) ++ r.2.flatten) =
      padded erasesize (front ++ buf ++ image.flatten) := by
  obtain ⟨hdata, hle, hend⟩ := fillBuffer_spec erasesize image buf hroom
  rw [hr] at hdata hle hend
  rw [List.append_assoc front buf, ← hdata]
  by_cases hlt : r.1.length < erasesize
  · rw [hend hlt, List.flatten_nil, List.append_nil, List.append_nil]
    exact padded_block hfront (List.length_pos_iff.mpr hne) hle
  · rw [Nat.sub_eq_zero_of_le (by omega), List.replicate_zero, List.append_nil, List.append_assoc]

theorem padded_whole {erasesize : ℕ} {image : List Byte} (h : erasesize ∣ image.length) :
    padded erasesize image = image := by
  unfold padded
  rw [Nat.mod_eq_zero_of_dvd h, Nat.sub_zero, Nat.mod_self, List.replicate_zero, List.append_nil]

theorem payload_snoc (log : List Op) (op : Op) : payload (log ++ [op]) = payload log ++ op.bytes := by
  simp [payload]

theorem bufBytes_whole (c : Conf) {s : St} (hoffset : s.offset = 0) :
    bufBytes c s s.buf.length = s.buf := by
  unfold bufBytes
  refine List.ext_getElem (by simp) fun i hi hlt => ?_
  rw [List.getElem_map, List.getElem_range, hoffset, Nat.zero_add, List.getD_eq_getElem _ _ hlt]

theorem bufBytes_length (c : Conf) (s : St) (len : ℕ) : (bufBytes c s len).length = len := by
  simp [bufBytes]

section

variable {c : Conf} {parts : List Part} {image : List Byte} {s : St}

/-- While a block is still to be erased, the cursor is at the block of the next write. -/
theorem Inv.cursor_of_needs (h : Inv c parts image s)
    (hfilled : s.filled = true) (hneeds : NeedsErase c s) : s.e = s.w + s.skipBadBlocks := by
  rcases h.cursor with he | ⟨_, he, _⟩
  · exact he
  · have hlt := hneeds.2
    have hfull := h.full hfilled
    omega

theorem Inv.cursor_of_not_needs (h : Inv c parts image s) (hE : 0 < c.erasesize)
    (hn : c.noErase = false) (hfilled : s.filled = true) (hneeds : ¬NeedsErase c s) :
    s.e = s.w + s.skipBadBlocks + c.erasesize ∧ c.partOffset = 0 ∧
      .erase s.part (s.pos / c.erasesize) true ∈ s.log ∧
      Good parts s.part (s.pos / c.erasesize) := by
  rcases h.cursor with he | ⟨_, hrest⟩
  · have hfull := h.full hfilled
    exact absurd ⟨hn, by omega⟩ hneeds
  · exact hrest

theorem Inv.eAligned (h : Inv c parts image s) (he : s.e = s.w + s.skipBadBlocks) :
    c.erasesize ∣ s.e := he ▸ Nat.dvd_add h.wAligned h.skipAligned

theorem Inv.good (h : Inv c parts image s) {block : ℕ}
    (hgood : mtdBlockIsBad s.cur block = some false) : Good parts s.part block :=
  ⟨s.cur, h.cur, hgood⟩

theorem Inv.fill (h : Inv c parts image s) (hfilled : s.filled = false) {s' : St}
    (hstep : fillStep c s = .cont s') : Inv c parts image s' := by
  obtain ⟨_, hle, _⟩ := fillBuffer_spec c.erasesize s.image s.buf h.room
  unfold fillStep at hstep
  dsimp only at hstep
  generalize hr : fillBuffer c.erasesize s.image s.buf = r at hstep hle
  split at hstep
  · exact absurd hstep (by simp)
  · rename_i hne
    obtain rfl := Next.cont.inj hstep
    have hlen : (r.1 ++ List.replicate (c.erasesize - r.1.length) (0xff : Byte)).length =
        c.erasesize := by
      rw [List.length_append, List.length_replicate]
      omega
    have hcursor : s.e = s.w + s.skipBadBlocks := by
      rcases h.cursor with he | ⟨htrue, _⟩
      · exact he
      · exact absurd (hfilled.symm.trans htrue) (by simp)
    exact
      { h with
        cursor := Or.inl hcursor
        room := le_of_eq hlen
        full := fun _ => hlen
        data := (padded_fill h.dataAligned h.room hr hne).trans h.data }

/-- The write of a full buffer. -/
theorem Inv.writeOk (h : Inv c parts image s) (hE : 0 < c.erasesize) (hn : c.noErase = false)
    (hfilled : s.filled = true) (hneeds : ¬NeedsErase c s) :
    WriteOk c.erasesize parts s.log s.part s.pos s.offset (bufBytes c s s.buf.length) := by
  obtain ⟨_, hzero, herased, hgood⟩ := h.cursor_of_not_needs hE hn hfilled hneeds
  have hlen : (bufBytes c s s.buf.length).length = c.erasesize :=
    (bufBytes_length c s _).trans (h.full hfilled)
  refine ⟨hlen, ?_, ?_, hgood, herased, h.later⟩
  · rw [h.pos, hzero, Nat.zero_add]
    exact Nat.dvd_add h.wAligned h.skipAligned
  · rw [hlen, h.offset, Nat.zero_add]

theorem Inv.write (h : Inv c parts image s) (hE : 0 < c.erasesize) (hn : c.noErase = false)
    (hfilled : s.filled = true) (hneeds : ¬NeedsErase c s) {s' : St}
    (hstep : writeStep c s = .cont s') : Inv c parts image s' := by
  obtain ⟨hcursor, hzero, herased, hgood⟩ := h.cursor_of_not_needs hE hn hfilled hneeds
  have hok := h.writeOk hE hn hfilled hneeds
  have hfull := h.full hfilled
  unfold writeStep at hstep
  dsimp only at hstep
  split at hstep
  · obtain rfl := Next.cont.inj hstep
    rw [bufBytes_whole c h.offset] at hok ⊢
    refine
      { h with
        offset := rfl
        pos := ?_
        wAligned := ?_
        cursor := Or.inl ?_
        room := Nat.zero_le _
        full := fun hfalse => absurd hfalse (by simp)
        ops := h.ops.snoc hok
        dataAligned := ?_
        data := ?_
        later := ?_
        ahead := fun hoff => absurd hzero (by omega)
        erases := ?_ }
    · dsimp only
      have hpos := h.pos
      omega
    · dsimp only
      rw [hfull]
      exact Nat.dvd_add h.wAligned (Nat.dvd_refl _)
    · dsimp only
      omega
    · dsimp only
      rw [payload_snoc, List.length_append]
      refine Nat.dvd_add h.dataAligned ?_
      simp only [Op.bytes, hfull]
      exact Nat.dvd_refl _
    · dsimp only
      rw [payload_snoc, List.append_nil]
      exact h.data
    · intro i pos offset bytes hmem
      rcases List.mem_append.mp hmem with hold | hnew
      · rcases h.later i pos offset bytes hold with hlt | ⟨heq, hlt⟩
        · exact Or.inl hlt
        · exact Or.inr ⟨heq, by dsimp only; omega⟩
      · obtain ⟨rfl, rfl, _, _⟩ := by simpa using hnew
        exact Or.inr ⟨rfl, by dsimp only; omega⟩
    · intro i block hmem
      have hold : .erase i block true ∈ s.log := by simpa using hmem
      rcases h.erases i block hold with ⟨pos, offset, bytes, hwrite, hle⟩ | ⟨rfl, heq, _⟩
      · exact Or.inl ⟨pos, offset, bytes, List.mem_append_left _ hwrite, hle⟩
      · exact Or.inl ⟨s.pos, s.offset, s.buf, List.mem_append_right _ List.mem_cons_self,
          le_of_eq heq⟩
  · exact absurd hstep (by simp)

/-- A failed erase in the log changes nothing that the invariant says. -/
theorem Inv.erase_failed (h : Inv c parts image s) {block : ℕ} (hgood : Good parts s.part block) :
    Inv c parts image { s with log := s.log ++ [.erase s.part block false] } := by
  have hmem : ∀ {op : Op}, op ∈ s.log ++ [.erase s.part block false] →
      op ∈ s.log ∨ op = .erase s.part block false := by
    intro op hop
    rcases List.mem_append.mp hop with hold | hnew
    · exact Or.inl hold
    · exact Or.inr (List.mem_singleton.mp hnew)
  refine
    { h with
      cursor := ?_
      ops := h.ops.snoc hgood
      dataAligned := ?_
      data := ?_
      later := ?_
      ahead := ?_
      erases := ?_ }
  · rcases h.cursor with he | ⟨hfilled, he, hzero, herased, hgood'⟩
    · exact Or.inl he
    · exact Or.inr ⟨hfilled, he, hzero, List.mem_append_left _ herased, hgood'⟩
  · dsimp only
    rw [payload_snoc]
    simpa [Op.bytes] using h.dataAligned
  · dsimp only
    rw [payload_snoc]
    simpa [Op.bytes] using h.data
  · intro i pos offset bytes hop
    rcases hmem hop with hold | hnew
    · exact h.later i pos offset bytes hold
    · exact absurd hnew (by simp)
  · intro hoff op hop
    rcases hmem hop with hold | rfl
    · exact h.ahead hoff op hold
    · exact ⟨s.part, block, rfl⟩
  · intro i b hop
    rcases hmem hop with hold | hnew
    · rcases h.erases i b hold with ⟨pos, offset, bytes, hwrite, hle⟩ | hpending
      · exact Or.inl ⟨pos, offset, bytes, List.mem_append_left _ hwrite, hle⟩
      · exact Or.inr hpending
    · exact absurd hnew (by simp)

/-- The next partition starts with the buffer as it is. -/
theorem Inv.resume (h : Inv c parts image s) (hE : 0 < c.erasesize)
    (he : s.e = s.w + s.skipBadBlocks) (hskip : s.skipBadBlocks = 0) {s' : St}
    (hstep : resume c s s.next = .cont s') :
    Inv c parts image s' := by
  cases hnext : s.next with
  | nil =>
    rw [hnext] at hstep
    exact absurd hstep (by simp [Mtd.resume])
  | cons p ps =>
    rw [hnext, Mtd.resume] at hstep
    split at hstep
    · obtain rfl := Next.cont.inj hstep
      have hdrop : parts.drop (s.part + 1) = p :: ps := h.next.symm.trans hnext
      refine
        { h with
          cur := ?_
          next := ?_
          pos := ?_
          wAligned := Nat.dvd_zero _
          cursor := Or.inl ?_
          later := ?_
          erases := ?_ }
      · have hhead := congrArg List.head? hdrop
        rwa [List.head?_drop] at hhead
      · have htail := congrArg List.tail hdrop
        rw [List.tail_drop] at htail
        exact htail.symm
      · dsimp only
        omega
      · dsimp only
        omega
      · intro i pos offset bytes hmem
        rcases h.later i pos offset bytes hmem with hlt | ⟨rfl, _⟩
        · exact Or.inl (Nat.lt_succ_of_lt hlt)
        · exact Or.inl (Nat.lt_succ_self _)
      · intro i block hmem
        rcases h.erases i block hmem with hwritten | ⟨_, _, hpending⟩
        · exact Or.inl hwritten
        · omega
    · exact absurd hstep (by simp)

theorem Inv.skip (h : Inv c parts image s) (hE : 0 < c.erasesize)
    (he : s.e = s.w + s.skipBadBlocks) :
    Inv c parts image { s with
      skipBadBlocks := s.skipBadBlocks + c.erasesize
      e := s.e + c.erasesize
      pos := s.pos + c.erasesize } := by
  refine
    { h with
      pos := ?_
      skipAligned := Nat.dvd_add h.skipAligned (Nat.dvd_refl _)
      cursor := Or.inl ?_
      later := ?_
      erases := ?_ }
  · dsimp only
    have hpos := h.pos
    omega
  · dsimp only
    omega
  · intro i pos offset bytes hmem
    rcases h.later i pos offset bytes hmem with hlt | ⟨heq, hlt⟩
    · exact Or.inl hlt
    · exact Or.inr ⟨heq, by dsimp only; omega⟩
  · intro i block hmem
    rcases h.erases i block hmem with hwritten | ⟨hpart, hblock, hpending⟩
    · exact Or.inl hwritten
    · omega

theorem Inv.erase (h : Inv c parts image s) (hE : 0 < c.erasesize) (hfilled : s.filled = true)
    (he : s.e = s.w + s.skipBadBlocks) (hzero : c.partOffset = 0)
    (hgood : Good parts s.part (s.e / c.erasesize)) :
    Inv c parts image { s with
      e := s.e + c.erasesize
      log := s.log ++ [.erase s.part (s.e / c.erasesize) true] } := by
  have hpos : s.pos = s.e := by
    have hpos := h.pos
    omega
  have hmem : ∀ {op : Op}, op ∈ s.log ++ [.erase s.part (s.e / c.erasesize) true] →
      op ∈ s.log ∨ op = .erase s.part (s.e / c.erasesize) true := by
    intro op hop
    rcases List.mem_append.mp hop with hold | hnew
    · exact Or.inl hold
    · exact Or.inr (List.mem_singleton.mp hnew)
  refine
    { h with
      cursor := Or.inr ⟨hfilled, ?_, hzero, ?_, ?_⟩
      ops := h.ops.snoc hgood
      dataAligned := ?_
      data := ?_
      later := ?_
      ahead := fun hoff => absurd hzero (by omega)
      erases := ?_ }
  · dsimp only
    omega
  · dsimp only
    rw [hpos]
    exact List.mem_append_right _ List.mem_cons_self
  · dsimp only
    rwa [hpos]
  · dsimp only
    rw [payload_snoc]
    simpa [Op.bytes] using h.dataAligned
  · dsimp only
    rw [payload_snoc]
    simpa [Op.bytes] using h.data
  · intro i pos offset bytes hop
    rcases hmem hop with hold | hnew
    · exact h.later i pos offset bytes hold
    · exact absurd hnew (by simp)
  · intro i b hop
    rcases hmem hop with hold | hnew
    · rcases h.erases i b hold with ⟨pos, offset, bytes, hwrite, hle⟩ | ⟨_, _, hpending⟩
      · exact Or.inl ⟨pos, offset, bytes, List.mem_append_left _ hwrite, hle⟩
      · omega
    · obtain ⟨rfl, rfl, _⟩ := Op.erase.inj hnew
      refine Or.inr ⟨rfl, ?_, ?_⟩
      · dsimp only
        rw [hpos]
        exact Nat.div_mul_cancel (h.eAligned he)
      · dsimp only
        omega

/-- A step that meets the condition keeps the invariant. -/
theorem Inv.step (h : Inv c parts image s) (hE : 0 < c.erasesize) (hn : c.noErase = false)
    (hok : StepOk c s) {s' : St} (hstep : step c s = .cont s') : Inv c parts image s' := by
  unfold Mtd.step at hstep
  split at hstep
  · rename_i hfilled
    exact h.fill hfilled hstep
  · rename_i hfilled
    have hfilled : s.filled = true := by simpa using hfilled
    split at hstep
    · rename_i hneeds
      have he := h.cursor_of_needs hfilled hneeds
      unfold eraseStep at hstep
      dsimp only at hstep
      split at hstep
      · exact absurd hstep (by simp)
      · obtain rfl := Next.cont.inj hstep
        exact h.skip hE he
      · rename_i hgood
        split at hstep
        · rename_i herase
          obtain rfl := Next.cont.inj hstep
          have hzero : c.partOffset = 0 := by
            by_contra hoff
            exact hok.2 ⟨hfilled, hneeds, hgood, herase, Nat.pos_of_ne_zero hoff⟩
          exact h.erase hE hfilled he hzero (h.good hgood)
        · rename_i hfail
          unfold leavePart at hstep
          dsimp only at hstep
          split at hstep
          · exact absurd hstep (by simp)
          · rename_i hnext
            have hskip : s.skipBadBlocks = 0 := by
              by_contra hskip
              exact hok.1 ⟨hfilled, hneeds, hgood, by simpa using hfail, hnext,
                Nat.pos_of_ne_zero hskip⟩
            rw [if_neg (by omega)] at hstep
            exact (h.erase_failed (h.good hgood)).resume hE he hskip hstep
    · rename_i hneeds
      exact h.write hE hn hfilled hneeds hstep

theorem Inv.start {p : Part} {ps : List Part} {buf : List Byte}
    {reads : List (List Byte)} (hbuf : buf.length ≤ c.erasesize) :
    Inv c (p :: ps) (buf ++ reads.flatten) (start c p ps buf reads) where
  cur := rfl
  next := rfl
  offset := rfl
  pos := rfl
  wAligned := Nat.dvd_zero _
  skipAligned := Nat.dvd_zero _
  cursor := Or.inl rfl
  room := hbuf
  full := fun hfalse => absurd hfalse (by simp [Mtd.start])
  ops := justified_nil
  dataAligned := Nat.dvd_zero _
  data := rfl
  later := fun _ _ _ _ hmem => absurd hmem List.not_mem_nil
  ahead := fun _ _ hmem => absurd hmem List.not_mem_nil
  erases := fun _ _ hmem => absurd hmem List.not_mem_nil

/-- After a partition was left dirty: bytes from behind the buffer have been written,
or the block in the buffer will be written from there. -/
def Poisoned (c : Conf) (s : St) : Prop :=
  (∃ i pos offset bytes, .write i pos offset bytes ∈ s.log ∧
    c.erasesize < offset + bytes.length) ∨
  s.filled = true ∧ c.erasesize ≤ s.offset ∧ s.buf.length = c.erasesize

theorem resume_cont {s' : St} {ps : List Part} (hstep : resume c s ps = .cont s') :
    s'.log = s.log ∧ s'.filled = s.filled ∧ s'.offset = s.offset ∧ s'.buf = s.buf := by
  cases ps with
  | nil => exact absurd hstep (by simp [resume])
  | cons p ps =>
    rw [resume] at hstep
    split at hstep
    · obtain rfl := Next.cont.inj hstep
      exact ⟨rfl, rfl, rfl, rfl⟩
    · exact absurd hstep (by simp)

theorem Poisoned.leave (h : Poisoned c s) {s' : St} (hstep : leavePart c s = .cont s') :
    Poisoned c s' := by
  unfold leavePart at hstep
  dsimp only at hstep
  split at hstep
  · exact absurd hstep (by simp)
  · split at hstep
    · obtain ⟨hlog, _, _, _⟩ := resume_cont hstep
      rcases h with ⟨i, pos, offset, bytes, hmem, hout⟩ | ⟨_, hoffset, _⟩
      · refine Or.inl ⟨i, pos, offset, bytes, ?_, hout⟩
        rw [hlog]
        exact List.mem_append_left _ hmem
      · -- the write between the partitions starts behind the buffer
        refine Or.inl ⟨s.part, s.pos, s.offset, bufBytes c s (s.e - s.w), ?_, ?_⟩
        · rw [hlog]
          exact List.mem_append_right _ List.mem_cons_self
        · rw [bufBytes_length]
          omega
    · obtain ⟨hlog, hfilled, hoffset, hbuf⟩ := resume_cont hstep
      unfold Poisoned
      rwa [hlog, hfilled, hoffset, hbuf]

theorem Poisoned.step (h : Poisoned c s) (hE : 0 < c.erasesize) {s' : St}
    (hstep : step c s = .cont s') : Poisoned c s' := by
  have hlog : ∀ {t : St}, (∀ op ∈ s.log, op ∈ t.log) →
      (∃ i pos offset bytes, .write i pos offset bytes ∈ s.log ∧
        c.erasesize < offset + bytes.length) → Poisoned c t := by
    rintro t hsub ⟨i, pos, offset, bytes, hmem, hout⟩
    exact Or.inl ⟨i, pos, offset, bytes, hsub _ hmem, hout⟩
  unfold Mtd.step at hstep
  split at hstep
  · rename_i hfilled
    rcases h with hwritten | ⟨htrue, _⟩
    · unfold fillStep at hstep
      dsimp only at hstep
      split at hstep
      · exact absurd hstep (by simp)
      · obtain rfl := Next.cont.inj hstep
        exact hlog (fun _ hop => hop) hwritten
    · exact absurd (hfilled.symm.trans htrue) (by simp)
  · split at hstep
    · unfold eraseStep at hstep
      dsimp only at hstep
      have herased : ∀ ok, Poisoned c { s with
          log := s.log ++ [.erase s.part (s.e / c.erasesize) ok] } := by
        intro ok
        rcases h with hwritten | hpending
        · exact hlog (fun _ hop => List.mem_append_left _ hop) hwritten
        · exact Or.inr hpending
      split at hstep
      · exact absurd hstep (by simp)
      · obtain rfl := Next.cont.inj hstep
        exact h
      · split at hstep
        · obtain rfl := Next.cont.inj hstep
          exact herased true
        · exact (herased false).leave hstep
    · unfold writeStep at hstep
      dsimp only at hstep
      split at hstep
      · obtain rfl := Next.cont.inj hstep
        rcases h with hwritten | ⟨_, hoffset, hbuf⟩
        · exact hlog (fun _ hop => List.mem_append_left _ hop) hwritten
        · refine Or.inl ⟨s.part, s.pos, s.offset, bufBytes c s s.buf.length, ?_, ?_⟩
          · exact List.mem_append_right _ List.mem_cons_self
          · rw [bufBytes_length]
            omega
      · exact absurd hstep (by simp)

/-- Leaving a partition dirty. -/
theorem Inv.poisoned (h : Inv c parts image s) (hdirty : LeavesDirty c s)
    {s' : St} (hstep : Mtd.step c s = .cont s') : Poisoned c s' := by
  obtain ⟨hfilled, hneeds, hgood, hfail, hnext, hskip⟩ := hdirty
  have he := h.cursor_of_needs hfilled hneeds
  have hfull := h.full hfilled
  have hlarge : c.erasesize ≤ s.skipBadBlocks := Nat.le_of_dvd hskip h.skipAligned
  unfold Mtd.step at hstep
  rw [if_neg (by simp [hfilled]), if_pos hneeds] at hstep
  unfold eraseStep at hstep
  dsimp only at hstep
  rw [hgood] at hstep
  dsimp only at hstep
  rw [if_neg (by simp [hfail])] at hstep
  unfold leavePart at hstep
  dsimp only at hstep
  rw [if_neg hnext, if_pos (by omega)] at hstep
  obtain ⟨_, hfilled', hoffset, hbuf⟩ := resume_cont hstep
  refine Or.inr ⟨hfilled'.trans hfilled, ?_, ?_⟩
  · rw [hoffset]
    dsimp only
    omega
  · rw [hbuf]
    exact hfull

theorem step_ret {s' : St} (hstep : step c s = .ret s') :
    s.filled = false ∧ (fillBuffer c.erasesize s.image s.buf).1 = [] := by
  unfold step at hstep
  split at hstep
  · rename_i hfilled
    unfold fillStep at hstep
    dsimp only at hstep
    split at hstep
    · rename_i hempty
      exact ⟨hfilled, hempty⟩
    · exact absurd hstep (by simp)
  · have hresume : ∀ (t : St) ps, resume c t ps ≠ .ret s' := by
      intro t ps
      cases ps with
      | nil => simp [resume]
      | cons p ps =>
        rw [resume]
        split <;> simp
    split at hstep
    · unfold eraseStep at hstep
      dsimp only at hstep
      split at hstep
      · exact absurd hstep (by simp)
      · exact absurd hstep (by simp)
      · split at hstep
        · exact absurd hstep (by simp)
        · unfold leavePart at hstep
          dsimp only at hstep
          split at hstep
          · exact absurd hstep (by simp)
          · split at hstep
            · exact absurd hstep (hresume _ _)
            · exact absurd hstep (hresume _ _)
    · unfold writeStep at hstep
      dsimp only at hstep
      split at hstep
      · exact absurd hstep (by simp)
      · exact absurd hstep (by simp)

theorem reach_inv (hE : 0 < c.erasesize) (hn : c.noErase = false) {s0 : St}
    (h0 : Inv c parts image s0) (hreach : Reach c s0 s) (hok : ∀ t, Reach c s0 t → StepOk c t) :
    Inv c parts image s := by
  induction hreach with
  | refl => exact h0
  | tail ht hstep ih => exact ih.step hE hn (hok _ ht) hstep

theorem reach_inv_or_poisoned (hE : 0 < c.erasesize) (hn : c.noErase = false)
    (hoff : c.partOffset = 0) {s0 : St} (h0 : Inv c parts image s0) (hreach : Reach c s0 s) :
    Inv c parts image s ∨ Poisoned c s := by
  induction hreach with
  | refl => exact Or.inl h0
  | @tail t _ _ hstep ih =>
    rcases ih with hinv | hpoisoned
    · by_cases hdirty : LeavesDirty c t
      · exact Or.inr (hinv.poisoned hdirty hstep)
      · refine Or.inl (hinv.step hE hn ⟨hdirty, ?_⟩ hstep)
        rintro ⟨_, _, _, _, hpos⟩
        omega
    · exact Or.inr (hpoisoned.step hE hstep)

theorem reach_poisoned (hE : 0 < c.erasesize) {s0 : St} (h0 : Poisoned c s0)
    (hreach : Reach c s0 s) : Poisoned c s :=
  run_preserves (fun t t' (h : Poisoned c t) (hstep : step c t = .cont t') => h.step hE hstep)
    hreach h0

/-- A run that returns 0 has written the padded image exactly when no partition was
left dirty. -/
theorem mtd_write_layout (hE : 0 < c.erasesize) (hn : c.noErase = false) (hoff : c.partOffset = 0)
    {p : Part} {ps : List Part} {buf : List Byte} {reads : List (List Byte)}
    (hbuf : buf.length ≤ c.erasesize) (hreach : Reach c (start c p ps buf reads) s)
    (hret : Returned c s) :
    Layout c.erasesize (p :: ps) (buf ++ reads.flatten) s.log ↔
      ∀ t, Reach c (start c p ps buf reads) t → ¬LeavesDirty c t := by
  have h0 : Inv c (p :: ps) (buf ++ reads.flatten) (start c p ps buf reads) := Inv.start hbuf
  obtain ⟨s', hstop⟩ := hret
  obtain ⟨hfilled, hempty⟩ := step_ret hstop
  constructor
  · intro hlayout t ht hdirty
    have hunique : Relator.RightUnique fun s s' => step c s = .cont s' := by
      intro a b b' hb hb'
      exact Next.cont.inj (hb.symm.trans hb')
    have hne : t ≠ s := by
      rintro rfl
      exact absurd (hfilled.symm.trans hdirty.1) (by simp)
    rcases Relation.ReflTransGen.total_of_right_unique hunique ht hreach with hts | hst
    · obtain ⟨t', hstep, hrest⟩ := (Relation.ReflTransGen.cases_head hts).resolve_left hne
      have hpoisoned : Poisoned c t' := by
        rcases reach_inv_or_poisoned hE hn hoff h0 ht with hinv | hpoisoned
        · exact hinv.poisoned hdirty hstep
        · exact hpoisoned.step hE hstep
      rcases reach_poisoned hE hpoisoned hrest with ⟨i, pos, offset, bytes, hmem, hout⟩ | ⟨htrue, _⟩
      · obtain ⟨before, hop⟩ := hlayout.ops.mem hmem
        have hinside := hop.inside
        omega
      · exact absurd (hfilled.symm.trans htrue) (by simp)
    · obtain ⟨_, hstep, _⟩ := (Relation.ReflTransGen.cases_head hst).resolve_left hne.symm
      exact absurd (hstop.symm.trans hstep) (by simp)
  · intro hclean
    have hinv := reach_inv hE hn h0 hreach fun t ht =>
      ⟨hclean t ht, fun hahead => absurd hahead.2.2.2.2 (by omega)⟩
    obtain ⟨hdata, _, hend⟩ := fillBuffer_spec c.erasesize s.image s.buf hinv.room
    rw [hend (by rw [hempty]; exact hE), hempty, List.flatten_nil, List.append_nil] at hdata
    refine ⟨hinv.ops, ?_⟩
    rw [← hinv.data, List.append_assoc, ← hdata, List.append_nil]
    exact (padded_whole hinv.dataAligned).symm

/-- Erase blocks of four bytes. -/
def smallConf (partOffset : ℕ) : Conf where
  erasesize := 4
  noErase := false
  partOffset := partOffset
  heap _ := 0xa5

/-- A NAND partition of three blocks with the given bad and unerasable blocks. -/
def smallPart (bad unerasable : List ℕ) : Part where
  opens := true
  nand := true
  blocks := 3
  bad b := decide (b ∈ bad)
  eraseOk b := decide (b ∉ unerasable)
  writeOk _ := true

/-- An erase fails before any bad block, and the second partition takes the rest. -/
theorem mtd_write_layout_two :
    ∃ s : St, Returned (smallConf 0) s ∧
      Layout 4 [smallPart [] [1], smallPart [0] []] [1, 2, 3, 4, 5, 6] s.log := by
  let s0 := start (smallConf 0) (smallPart [] [1]) [smallPart [0] []] [] [[1, 2, 3], [], [4, 5, 6]]
  have hrun : ((run (smallConf 0) 20 s0).map fun r => r.1) = some true := by decide +kernel
  have hclean : holdsOnRun (smallConf 0) (fun t => decide ¬LeavesDirty (smallConf 0) t) 20 s0 =
      true := by decide +kernel
  obtain ⟨⟨_, s'⟩, hs', rfl⟩ := Option.map_eq_some_iff.mp hrun
  obtain ⟨s, hreach, hret⟩ := run_ret hs'
  refine ⟨s, ⟨s', hret⟩, ?_⟩
  exact (mtd_write_layout (by decide) rfl rfl (by decide) hreach ⟨s', hret⟩).mpr fun t ht => by
    simpa using holdsOnRun_reach hclean ht

/-- Block 0 is bad and block 2 cannot be erased: the second half of the image goes to
block 2, and the second partition gets bytes from behind the buffer. -/
theorem dirty_leave_breaks_layout :
    let s0 := start (smallConf 0) (smallPart [0] [2]) [smallPart [] []] [] [[1, 2, 3, 4, 5, 6, 7, 8]]
    let log := [Op.erase 0 1 true, .write 0 4 0 [1, 2, 3, 4], .erase 0 2 false,
      .write 0 8 0 [5, 6, 7, 8], .erase 1 0 true, .erase 1 1 true,
      .write 1 0 4 [0xa5, 0xa5, 0xa5, 0xa5]]
    (run (smallConf 0) 20 s0).map (fun r => (r.1, r.2.log)) = some (true, log) ∧
      ¬Layout 4 [smallPart [0] [2], smallPart [] []] [1, 2, 3, 4, 5, 6, 7, 8] log := by
  refine ⟨by decide +kernel, fun hlayout => ?_⟩
  obtain ⟨before, hop⟩ := hlayout.ops.mem
    (List.mem_append_right [Op.erase 0 1 true, .write 0 4 0 [1, 2, 3, 4], .erase 0 2 false,
      .write 0 8 0 [5, 6, 7, 8], .erase 1 0 true, .erase 1 1 true] List.mem_cons_self)
  exact absurd hop.inside (by decide)

theorem discipline_of_ops {log : List Op} (hE : 0 < c.erasesize)
    (hops : Justified (OpOk c.erasesize parts) log)
    (hahead : 0 < c.partOffset → ∀ op ∈ log, ∃ i block, op = .erase i block false)
    (hcovered : ∀ i block, .erase i block true ∈ log →
      ∃ pos offset bytes, .write i pos offset bytes ∈ log ∧ block * c.erasesize ≤ pos) :
    Discipline c log := by
  constructor
  · rintro before op after rfl i pos offset bytes rfl block hstart hend
    have hok : WriteOk c.erasesize parts before i pos offset bytes := hops _ _ _ rfl
    have hblock : block = pos / c.erasesize := by
      obtain ⟨k, rfl⟩ := hok.aligned
      rw [Nat.mul_div_cancel_left _ hE]
      rw [hok.whole, ← Nat.mul_succ, Nat.mul_comm, Nat.mul_lt_mul_left hE] at hend
      rw [Nat.mul_comm, Nat.mul_lt_mul_right hE] at hstart
      omega
    rw [hblock]
    exact hok.erased
  · intro i block hmem
    refine ⟨?_, hcovered i block hmem⟩
    by_contra hlt
    obtain ⟨_, _, heq⟩ := hahead (by omega) _ hmem
    exact absurd heq (by simp)

theorem Inv.discipline (h : Inv c parts image s) (hE : 0 < c.erasesize)
    (he : s.e = s.w + s.skipBadBlocks) : Discipline c s.log := by
  refine discipline_of_ops hE h.ops h.ahead fun i block hmem => ?_
  rcases h.erases i block hmem with hwritten | ⟨_, _, hpending⟩
  · exact hwritten
  · omega

theorem Inv.erase_stop (h : Inv c parts image s) (hE : 0 < c.erasesize) (hok : StepOk c s)
    (hfilled : s.filled = true) (hneeds : NeedsErase c s) {log : List Op}
    (hstop : (eraseStep c s).stopLog = some log) : Discipline c log := by
  have he := h.cursor_of_needs hfilled hneeds
  unfold eraseStep at hstop
  dsimp only at hstop
  split at hstop
  · obtain rfl := Option.some.inj hstop
    exact h.discipline hE he
  · exact absurd hstop (by simp [Next.stopLog])
  · rename_i hgood
    split at hstop
    · exact absurd hstop (by simp [Next.stopLog])
    · rename_i hfail
      have hfailed := (h.erase_failed (h.good hgood)).discipline hE he
      unfold leavePart at hstop
      dsimp only at hstop
      split at hstop
      · obtain rfl := Option.some.inj hstop
        exact hfailed
      · rename_i hnext
        have hskip : s.skipBadBlocks = 0 := by
          by_contra hskip
          exact hok.1 ⟨hfilled, hneeds, hgood, by simpa using hfail, hnext, Nat.pos_of_ne_zero hskip⟩
        rw [if_neg (by omega)] at hstop
        cases hps : s.next with
        | nil => exact absurd hps hnext
        | cons p ps =>
          rw [hps, Mtd.resume] at hstop
          split at hstop
          · exact absurd hstop (by simp [Next.stopLog])
          · obtain rfl := Option.some.inj hstop
            exact hfailed

theorem Inv.write_stop (h : Inv c parts image s) (hE : 0 < c.erasesize) (hn : c.noErase = false)
    (hfilled : s.filled = true) (hneeds : ¬NeedsErase c s) {log : List Op}
    (hstop : (writeStep c s).stopLog = some log) : Discipline c log := by
  obtain ⟨_, hzero, _, _⟩ := h.cursor_of_not_needs hE hn hfilled hneeds
  have hok := h.writeOk hE hn hfilled hneeds
  unfold writeStep at hstop
  dsimp only at hstop
  split at hstop
  · exact absurd hstop (by simp [Next.stopLog])
  · obtain rfl := Option.some.inj hstop
    refine discipline_of_ops hE (h.ops.snoc hok) (fun hoff => absurd hzero (by omega)) ?_
    intro i block hmem
    have hold : .erase i block true ∈ s.log := by simpa using hmem
    rcases h.erases i block hold with ⟨pos, offset, bytes, hwrite, hle⟩ | ⟨rfl, heq, _⟩
    · exact ⟨pos, offset, bytes, List.mem_append_left _ hwrite, hle⟩
    · exact ⟨s.pos, s.offset, _, List.mem_append_right _ List.mem_cons_self, le_of_eq heq⟩

/-- However a run ends, it has erased what it wrote and nothing else, as long as no
partition was left dirty and nothing was erased although an offset was given. -/
theorem mtd_write_discipline (hE : 0 < c.erasesize) (hn : c.noErase = false) {p : Part}
    {ps : List Part} {buf : List Byte} {reads : List (List Byte)} (hbuf : buf.length ≤ c.erasesize)
    (hok : ∀ t, Reach c (start c p ps buf reads) t → StepOk c t)
    (hreach : Reach c (start c p ps buf reads) s) {log : List Op}
    (hstop : (step c s).stopLog = some log) : Discipline c log := by
  have hinv : Inv c (p :: ps) (buf ++ reads.flatten) s :=
    reach_inv hE hn (Inv.start hbuf) hreach hok
  unfold step at hstop
  by_cases hfilled : s.filled = true
  · rw [if_neg (by simp [hfilled])] at hstop
    by_cases hneeds : NeedsErase c s
    · rw [if_pos hneeds] at hstop
      exact hinv.erase_stop hE (hok s hreach) hfilled hneeds hstop
    · rw [if_neg hneeds] at hstop
      exact hinv.write_stop hE hn hfilled hneeds hstop
  · rw [if_pos (by simpa using hfilled)] at hstop
    have he : s.e = s.w + s.skipBadBlocks := hinv.cursor.resolve_right fun h => hfilled h.1
    unfold fillStep at hstop
    dsimp only at hstop
    split at hstop
    · obtain rfl := Option.some.inj hstop
      exact hinv.discipline hE he
    · exact absurd hstop (by simp [Next.stopLog])

theorem mtd_write_discipline_two :
    ∃ s log, (step (smallConf 0) s).stopLog = some log ∧ log ≠ [] ∧
      Discipline (smallConf 0) log := by
  let s0 := start (smallConf 0) (smallPart [] [1]) [smallPart [0] []] [] [[1, 2, 3], [], [4, 5, 6]]
  have hrun : ((run (smallConf 0) 20 s0).map fun r => (r.1, decide (r.2.log ≠ []))) =
      some (true, true) := by decide +kernel
  have hclean : holdsOnRun (smallConf 0) (fun t => decide (StepOk (smallConf 0) t)) 20 s0 =
      true := by decide +kernel
  obtain ⟨⟨b, s'⟩, hs', hlog⟩ := Option.map_eq_some_iff.mp hrun
  obtain ⟨rfl, hne⟩ := Prod.mk.inj hlog
  obtain ⟨s, hreach, hret⟩ := run_ret hs'
  have hstop : (step (smallConf 0) s).stopLog = some s'.log := by rw [hret, Next.stopLog]
  refine ⟨s, s'.log, hstop, by simpa using hne, ?_⟩
  exact mtd_write_discipline (by decide) rfl (by decide)
    (fun t ht => by simpa using holdsOnRun_reach hclean ht) hreach hstop

/-- With an offset of one block, block 0 is erased and block 1 is written. -/
theorem offset_breaks_discipline :
    let s0 := start (smallConf 4) (smallPart [] []) [] [] [[1, 2, 3, 4]]
    let log := [Op.erase 0 0 true, .write 0 4 0 [1, 2, 3, 4]]
    (run (smallConf 4) 20 s0).map (fun r => (r.1, r.2.log)) = some (true, log) ∧
      ¬Discipline (smallConf 4) log := by
  refine ⟨by decide +kernel, fun hdiscipline => ?_⟩
  have hbefore := (hdiscipline.between 0 0 List.mem_cons_self).1
  exact absurd hbefore (by decide)

end

end Iot7688.Mtd
