import Iot7688.Lib.Fields
import Iot7688.Lib.Ring
import Iot7688.Lib.Run

/-!
iwcap: captured frames in a ring of slots, and the dump of the ring as a pcap file. The
ring's memory is a list of bytes; a slot has the words of struct ringbuf_entry in front.
Words have 32 bits, as the memory of this little-endian board has them. The memory is
cleared for the bytes of the frames only, so the last slots keep what malloc gave.
-/
namespace Iot7688.Iwcap

open Lib

def u32 (n : ℕ) : ℕ := n % 2 ^ 32
def u16 (n : ℕ) : ℕ := n % 2 ^ 16

/-- The options that decide about the ring; the numbers are results of atoi. -/
inductive Opt
  | r (value : ℤ)
  | c (value : ℤ)
  | B
  | D

structure Options where
  ringsz : ℕ
  pktcap : ℕ
  filterData : Bool
  filterBeacon : Bool

/-- One option; the errors are the exit codes. -/
def option (o : Options) : Opt → Except ℕ Options
  | .r value =>
      let ringsz := (value % 2 ^ 32).toNat
      if ringsz < 3 * o.pktcap then .error 3 else .ok { o with ringsz := ringsz }
  | .c value =>
      let pktcap := (value % 2 ^ 16).toNat
      if pktcap ≤ 8 + 32 then .error 4 else .ok { o with pktcap := pktcap }
  | .B => .ok { o with filterBeacon := true }
  | .D => .ok { o with filterData := true }

def optionsFrom : Options → List Opt → Except ℕ Options
  | o, [] => .ok o
  | o, opt :: opts =>
      match option o opt with
      | .error e => .error e
      | .ok o => optionsFrom o opts

def options (opts : List Opt) : Except ℕ Options := optionsFrom ⟨1024 * 1024, 256, false, false⟩ opts

/-- sizeof(struct ringbuf_entry). -/
def entryLen : ℕ := 16

structure Ring where
  len : ℕ
  fill : ℕ
  slen : ℕ
  buf : List Byte

/-- ringbuf_init, with the bytes that malloc gives. -/
def ringbufInit (numItem lenItem : ℕ) (garbage : Mem) : Option Ring :=
  if lenItem = 0 then none
  else
    let mem := (List.range (u32 (numItem * (lenItem + entryLen)))).map garbage
    some ⟨numItem, 0, lenItem + entryLen, patch mem 0 (List.replicate (u32 (numItem * lenItem)) 0)⟩

/-- ringbuf_add: the ring and the place of the slot; none for a division by 0. -/
def ringbufAdd (r : Ring) (sec usec : ℕ) : Option (Ring × ℕ) :=
  if r.len = 0 then none
  else
    let e := u32 (r.fill * r.slen)
    let buf := patch r.buf e (List.replicate r.slen 0)
    let buf := patch buf (e + 8) (leBytes 4 sec)
    let buf := patch buf (e + 12) (leBytes 4 usec)
    some ({ r with fill := (r.fill + 1) % r.len, buf := buf }, e)

/-- A frame as recvfrom gives it, with the time at which it is stored. -/
structure Frame where
  bytes : List Byte
  short : bytes.length ≤ 0xffff
  sec : ℕ
  usec : ℕ

def frametypeMask : Byte := 0xfc
def frametypeBeacon : Byte := 0x80
def frametypeData : Byte := 0x08

/-- The tests in front of storing. -/
def isFiltered (o : Options) (pkt : List Byte) : Bool :=
  let itLen := field pkt 2 2
  if pkt.length ≤ 8 ∨ pkt.length ≤ itLen then true
  else
    let frametype := pkt.getD itLen 0 &&& frametypeMask
    o.filterData && frametype = frametypeData || o.filterBeacon && frametype = frametypeBeacon

def store (o : Options) (r : Ring) (f : Frame) : Option Ring :=
  match ringbufAdd r f.sec f.usec with
  | none => none
  | some (r, e) =>
      let pktlen := f.bytes.length
      let len := if o.pktcap < pktlen then o.pktcap else pktlen
      let buf := patch r.buf (e + 4) (leBytes 4 pktlen)
      let buf := patch buf e (leBytes 4 len)
      some { r with buf := patch buf (e + entryLen) (f.bytes.take len) }

/-- write_pcap_header. -/
def pcapHeader : List Byte :=
  leBytes 4 0xa1b2c3d4 ++ leBytes 2 2 ++ leBytes 2 4 ++ leBytes 4 0 ++ leBytes 4 0 ++
    leBytes 4 0xffff ++ leBytes 4 127

/-- write_pcap_frame. -/
def pcapFrame (sec usec len olen : ℕ) : List Byte :=
  leBytes 4 sec ++ leBytes 4 usec ++ leBytes 4 (u16 len) ++ leBytes 4 (u16 olen)

/-- What a slot puts into the file: nothing when ringbuf_get finds no length, and no result
for a read behind the memory of the ring. -/
def dumpSlot (buf : List Byte) (e : ℕ) : Option (List Byte) :=
  let len := field buf e 4
  if len = 0 then some []
  else if buf.length < e + entryLen + len then none
  else
    some (pcapFrame (field buf (e + 8) 4) (field buf (e + 12) 4) len (field buf (e + 4) 4) ++
      segment buf (e + entryLen) len)

/-- The place of slot i behind the cursor, as ringbuf_get computes it. -/
def place (r : Ring) (i : ℕ) : ℕ := u32 ((r.fill + i) % r.len * r.slen)

/-- n passes of the loop, from i on. -/
def dumpSlots (r : Ring) : ℕ → ℕ → Option (List Byte)
  | 0, _ => some []
  | n + 1, i =>
      match dumpSlot r.buf (place r i), dumpSlots r n (i + 1) with
      | some front, some back => some (front ++ back)
      | _, _ => none

def dump (r : Ring) : Option (List Byte) := (dumpSlots r r.len 0).map (pcapHeader ++ ·)

/-- A pass of the capture loop: recvfrom gives a frame or fails, or a dump is requested. -/
inductive Event
  | frame (f : Frame)
  | failed
  | dump

/-- The ring, and the frames that were to be stored. -/
structure Session where
  ring : Ring
  stored : List Frame

def Session.next (o : Options) (s : Session) : Event → Session
  | .frame f =>
      if isFiltered o f.bytes then s
      else
        match store o s.ring f with
        | none => s
        | some ring => ⟨ring, s.stored ++ [f]⟩
  | .failed => s
  | .dump => s

def slots (o : Options) : ℕ := o.ringsz / o.pktcap

/-- The record of a frame: its time, its captured and its original length, and its bytes. -/
def record (o : Options) (f : Frame) : List Byte :=
  leBytes 4 f.sec ++ leBytes 4 f.usec ++ leBytes 4 (min f.bytes.length o.pktcap) ++
    leBytes 4 f.bytes.length ++ f.bytes.take o.pktcap

/-- The last frames that have room, the oldest first. -/
def lastFrames (o : Options) (stored : List Frame) : List Frame :=
  stored.drop (stored.length - slots o)

/-- A dump has exactly the last frames. -/
def DumpRight (o : Options) (s : Session) (ev : Event) : Prop :=
  match ev with
  | .dump => dump s.ring = some (pcapHeader ++ (lastFrames o s.stored).flatMap (record o))
  | _ => True

/-- There is a slot, the size of the ring is counted in 32 bits, and every dump is right. -/
structure Captures (o : Options) (r : Ring) (events : List Event) : Prop where
  slots_pos : 1 ≤ slots o
  size_lt : slots o * (o.pktcap + entryLen) < 2 ^ 32
  dumps : Every (Session.next o) (DumpRight o) ⟨r, []⟩ events

/-- The length word of a slot lies where the memory is cleared, or malloc gives zeros. -/
def Cleared (o : Options) (garbage : Mem) (i : ℕ) : Prop :=
  ∀ j, j < 4 → i * (o.pktcap + entryLen) + j < slots o * o.pktcap ∨
    garbage (i * (o.pktcap + entryLen) + j) = 0

/-- At a dump the slots that were not used yet have no length. -/
def RestCleared (o : Options) (garbage : Mem) (s : Session) (ev : Event) : Prop :=
  match ev with
  | .dump => ∀ i, s.stored.length ≤ i → i < slots o → Cleared o garbage i
  | _ => True

section

variable {o : Options} {r : Ring} {f : Frame} {buf : List Byte} {e : ℕ}

theorem option_ok {o o' : Options} {opt : Opt} (h : option o opt = .ok o')
    (hcap : 40 < o.pktcap ∧ o.pktcap < 2 ^ 16) : 40 < o'.pktcap ∧ o'.pktcap < 2 ^ 16 := by
  unfold option at h
  cases opt with
  | r value =>
    dsimp only at h
    split at h
    · cases h
    · obtain rfl := Except.ok.inj h
      exact hcap
  | c value =>
    dsimp only at h
    split at h
    · cases h
    · obtain rfl := Except.ok.inj h
      dsimp only
      omega
  | B =>
    obtain rfl := Except.ok.inj h
    exact hcap
  | D =>
    obtain rfl := Except.ok.inj h
    exact hcap

theorem options_ok {opts : List Opt} (h : options opts = .ok o) :
    40 < o.pktcap ∧ o.pktcap < 2 ^ 16 := by
  have hfrom (opts : List Opt) (o' : Options) (hfrom : optionsFrom o' opts = .ok o)
      (hcap : 40 < o'.pktcap ∧ o'.pktcap < 2 ^ 16) : 40 < o.pktcap ∧ o.pktcap < 2 ^ 16 := by
    induction opts generalizing o' with
    | nil =>
      obtain rfl := Except.ok.inj hfrom
      exact hcap
    | cons opt opts ih =>
      rw [optionsFrom] at hfrom
      cases hopt : option o' opt with
      | error e =>
        rw [hopt] at hfrom
        cases hfrom
      | ok o1 =>
        rw [hopt] at hfrom
        exact ih o1 hfrom (option_ok hopt hcap)
  exact hfrom opts _ h (by decide)

/-- The length that is stored. -/
def capLen (o : Options) (f : Frame) : ℕ := min f.bytes.length o.pktcap

/-- The bytes of a slot that holds a frame. -/
def slotOf (o : Options) (f : Frame) : List Byte :=
  leBytes 4 (capLen o f) ++ (leBytes 4 f.bytes.length ++ (leBytes 4 f.sec ++ (leBytes 4 f.usec ++
    (f.bytes.take (capLen o f) ++ List.replicate (o.pktcap - capLen o f) 0))))

theorem slotOf_length (o : Options) (f : Frame) : (slotOf o f).length = o.pktcap + entryLen := by
  simp only [slotOf, List.length_append, leBytes_length, List.length_take, List.length_replicate,
    capLen, entryLen]
  omega

/-- The writes into a cleared slot. -/
theorem slot_writes (o : Options) (f : Frame) :
    patch (patch (patch (patch (patch (List.replicate (o.pktcap + entryLen) 0) 8 (leBytes 4 f.sec))
      12 (leBytes 4 f.usec)) 4 (leBytes 4 f.bytes.length)) 0 (leBytes 4 (capLen o f)))
      entryLen (f.bytes.take (capLen o f)) = slotOf o f := by
  unfold slotOf
  have hzero : (List.replicate (o.pktcap + entryLen) 0 : List Byte) =
      List.replicate 4 0 ++ (List.replicate 4 0 ++ (List.replicate 4 0 ++ (List.replicate 4 0 ++
        (List.replicate (capLen o f) 0 ++ List.replicate (o.pktcap - capLen o f) 0)))) := by
    simp only [List.replicate_append_replicate]
    congr 1
    unfold capLen entryLen
    omega
  have hword (a w c : List Byte) (hw : w.length = 4) (v : ℕ) :
      patch (a ++ (w ++ c)) a.length (leBytes 4 v) = a ++ (leBytes 4 v ++ c) := by
    simpa only [List.append_assoc] using patch_append ((leBytes_length 4 v).trans hw.symm) a c
  have hdata (a c : List Byte) :
      patch (a ++ (List.replicate (capLen o f) 0 ++ c)) a.length (f.bytes.take (capLen o f)) =
        a ++ (f.bytes.take (capLen o f) ++ c) := by
    have hlen : (f.bytes.take (capLen o f)).length = (List.replicate (capLen o f) (0 : Byte)).length := by
      rw [List.length_take, List.length_replicate]
      unfold capLen
      omega
    simpa only [List.append_assoc] using patch_append hlen a c
  generalize List.replicate (o.pktcap - capLen o f) (0 : Byte) = pad at *
  generalize hz : List.replicate 4 (0 : Byte) = z at *
  have hzlen : z.length = 4 := by
    rw [← hz]
    rfl
  have hsec := hword (z ++ z) z (z ++ (List.replicate (capLen o f) 0 ++ pad)) hzlen f.sec
  have husec := hword (z ++ z ++ leBytes 4 f.sec) z (List.replicate (capLen o f) 0 ++ pad) hzlen
    f.usec
  have holen := hword z z (leBytes 4 f.sec ++ (leBytes 4 f.usec ++
    (List.replicate (capLen o f) 0 ++ pad))) hzlen f.bytes.length
  have hlen := hword [] z (leBytes 4 f.bytes.length ++ (leBytes 4 f.sec ++ (leBytes 4 f.usec ++
    (List.replicate (capLen o f) 0 ++ pad)))) hzlen (capLen o f)
  have hbytes := hdata (leBytes 4 (capLen o f) ++ leBytes 4 f.bytes.length ++ leBytes 4 f.sec ++
    leBytes 4 f.usec) pad
  simp only [List.length_append, leBytes_length, hzlen, List.append_assoc, List.nil_append,
    List.length_nil] at hsec husec holen hlen hbytes
  rw [hzero, hsec, husec, holen, hlen]
  exact hbytes

theorem store_eq (hlen : 0 < r.len) (hslen : r.slen = o.pktcap + entryLen)
    (hin : u32 (r.fill * r.slen) + r.slen ≤ r.buf.length) (f : Frame) :
    store o r f = some { r with
      fill := (r.fill + 1) % r.len
      buf := patch r.buf (u32 (r.fill * r.slen)) (slotOf o f) } := by
  have hcap : (if o.pktcap < f.bytes.length then o.pktcap else f.bytes.length) = capLen o f := by
    unfold capLen
    split <;> omega
  have htake : (f.bytes.take (capLen o f)).length ≤ o.pktcap := by
    rw [List.length_take]
    unfold capLen
    omega
  unfold store ringbufAdd
  rw [if_neg (by omega)]
  dsimp only
  rw [hcap, ← slot_writes o f]
  generalize u32 (r.fill * r.slen) = e at *
  rw [hslen] at hin ⊢
  have hstep (p inner : List Byte) (k : ℕ) (hp : p.length = o.pktcap + entryLen)
      (hk : k + inner.length ≤ o.pktcap + entryLen) :
      patch (patch r.buf e p) (e + k) inner = patch r.buf e (patch p k inner) ∧
        (patch p k inner).length = o.pktcap + entryLen :=
    ⟨patch_inside (by omega) (by omega), (length_patch (by omega)).trans hp⟩
  have hword (v k : ℕ) (hk : k ≤ 12) : k + (leBytes 4 v).length ≤ o.pktcap + entryLen := by
    rw [leBytes_length]
    unfold entryLen
    omega
  obtain ⟨hsec, hlen1⟩ := hstep _ _ 8 List.length_replicate (hword f.sec 8 (by decide))
  obtain ⟨husec, hlen2⟩ := hstep _ _ 12 hlen1 (hword f.usec 12 (by decide))
  obtain ⟨holen, hlen3⟩ := hstep _ _ 4 hlen2 (hword f.bytes.length 4 (by decide))
  obtain ⟨hlen', hlen4⟩ := hstep _ _ 0 hlen3 (hword (capLen o f) 0 (by decide))
  obtain ⟨hbytes, -⟩ := hstep _ (f.bytes.take (capLen o f)) entryLen hlen4 (by omega)
  rw [Nat.add_zero] at hlen'
  rw [hsec, husec, holen, hlen', hbytes]

theorem field_slotOf (hcap : o.pktcap < 2 ^ 16) (f : Frame) :
    field (slotOf o f) 0 4 = capLen o f ∧ field (slotOf o f) 4 4 = f.bytes.length ∧
      field (slotOf o f) 8 4 = f.sec % 2 ^ (8 * 4) ∧ field (slotOf o f) 12 4 = f.usec % 2 ^ (8 * 4) ∧
        segment (slotOf o f) entryLen (capLen o f) = f.bytes.take (capLen o f) := by
  have hshort := f.short
  have hlen : capLen o f < 2 ^ 32 ∧ f.bytes.length < 2 ^ 32 := by
    unfold capLen
    omega
  unfold slotOf
  refine ⟨?_, ?_, ?_, ?_, ?_⟩
  · rw [field_leBytes_head]
    exact Nat.mod_eq_of_lt hlen.1
  · rw [field_leBytes_skip (by omega), field_leBytes_head]
    exact Nat.mod_eq_of_lt hlen.2
  · rw [field_leBytes_skip (by omega), field_leBytes_skip (by omega), field_leBytes_head]
  · rw [field_leBytes_skip (by omega), field_leBytes_skip (by omega), field_leBytes_skip (by omega),
      field_leBytes_head]
  · have hfront : (leBytes 4 (capLen o f) ++ leBytes 4 f.bytes.length ++ leBytes 4 f.sec ++
        leBytes 4 f.usec).length = entryLen := by
      simp only [List.length_append, leBytes_length, entryLen]
    have htake : (f.bytes.take (capLen o f)).length = capLen o f := by
      rw [List.length_take]
      unfold capLen
      omega
    have hparts : (leBytes 4 (capLen o f) ++ leBytes 4 f.bytes.length ++ leBytes 4 f.sec ++
        leBytes 4 f.usec ++ (f.bytes.take (capLen o f) ++
          List.replicate (o.pktcap - capLen o f) 0)).drop entryLen =
        f.bytes.take (capLen o f) ++ List.replicate (o.pktcap - capLen o f) 0 :=
      List.drop_left' hfront
    simp only [List.append_assoc] at hparts
    rw [Lib.segment, hparts, List.take_left' htake]

/-- A slot with a frame puts the frame's record into the file. -/
theorem dumpSlot_slotOf (hcap : 40 < o.pktcap ∧ o.pktcap < 2 ^ 16) (hpos : 0 < f.bytes.length)
    (hin : e + (o.pktcap + entryLen) ≤ buf.length)
    (hslot : segment buf e (o.pktcap + entryLen) = slotOf o f) :
    dumpSlot buf e = some (record o f) := by
  have hfield (k : ℕ) (hk : k + 4 ≤ o.pktcap + entryLen) : field buf (e + k) 4 =
      field (slotOf o f) k 4 := by
    rw [← hslot, field_segment buf e hk]
  have hcaplen : capLen o f ≤ o.pktcap ∧ 0 < capLen o f ∧ capLen o f ≤ f.bytes.length := by
    unfold capLen
    omega
  have hdata : segment buf (e + entryLen) (capLen o f) = segment (slotOf o f) entryLen (capLen o f) := by
    rw [← hslot, segment_segment buf e (by omega)]
  have hshort := f.short
  obtain ⟨hlen, holen, hsec, husec, hbytes⟩ := field_slotOf hcap.2 f
  unfold entryLen at hin hfield
  have hzero := hfield 0 (by omega)
  rw [Nat.add_zero, hlen] at hzero
  unfold dumpSlot
  rw [hzero, hfield 4 (by omega), hfield 8 (by omega), hfield 12 (by omega), holen, hsec, husec]
  dsimp only
  rw [hdata, hbytes]
  unfold entryLen
  rw [if_neg (by omega), if_neg (by omega), pcapFrame, leBytes_mod, leBytes_mod, u16, u16,
    Nat.mod_eq_of_lt (by omega), Nat.mod_eq_of_lt (by omega), record]
  have htake : f.bytes.take (capLen o f) = f.bytes.take o.pktcap := by
    unfold capLen
    rw [List.take_eq_take_iff]
    omega
  rw [htake]
  rfl

/-- The ring behind a history of stored frames: the last ones are in their slots, and the
slots that were not used yet are those of the fresh ring. -/
structure Holds (o : Options) (r : Ring) (s : Session) : Prop where
  len : s.ring.len = slots o
  slen : s.ring.slen = o.pktcap + entryLen
  fill : s.ring.fill = s.stored.length % slots o
  size : s.ring.buf.length = slots o * (o.pktcap + entryLen)
  used : ∀ k (hk : k < s.stored.length), s.stored.length ≤ k + slots o →
    segment s.ring.buf (k % slots o * (o.pktcap + entryLen)) (o.pktcap + entryLen) =
      slotOf o s.stored[k]
  unused : ∀ i, s.stored.length ≤ i → i < slots o →
    segment s.ring.buf (i * (o.pktcap + entryLen)) (o.pktcap + entryLen) =
      segment r.buf (i * (o.pktcap + entryLen)) (o.pktcap + entryLen)
  nonempty : ∀ f ∈ s.stored, 0 < f.bytes.length

theorem slot_end {i n l : ℕ} (hi : i < n) : i * l + l ≤ n * l := by
  rw [← Nat.succ_mul]
  exact Nat.mul_le_mul_right l hi

theorem slot_apart {i j : ℕ} (l : ℕ) (h : i ≠ j) : i * l + l ≤ j * l ∨ j * l + l ≤ i * l := by
  rcases Nat.lt_or_gt_of_ne h with hlt | hgt
  · exact Or.inl (slot_end hlt)
  · exact Or.inr (slot_end hgt)

theorem u32_slot {i n l : ℕ} (hi : i < n) (hsize : n * l < 2 ^ 32) : u32 (i * l) = i * l :=
  Nat.mod_eq_of_lt ((Nat.mul_le_mul_right l hi.le).trans_lt hsize)

variable {s : Session}

/-- A frame goes into the slot under the cursor, in place of the oldest one. -/
theorem holds_store (hpos : 1 ≤ slots o) (hsize : slots o * (o.pktcap + entryLen) < 2 ^ 32)
    (h : Holds o r s) (hf : 0 < f.bytes.length) :
    ∃ ring, store o s.ring f = some ring ∧ Holds o r ⟨ring, s.stored ++ [f]⟩ := by
  have hcursor : s.stored.length % slots o < slots o := Nat.mod_lt _ hpos
  have hplace : u32 (s.ring.fill * s.ring.slen) =
      s.stored.length % slots o * (o.pktcap + entryLen) := by
    rw [h.fill, h.slen, u32_slot hcursor hsize]
  have hend : s.stored.length % slots o * (o.pktcap + entryLen) + (slotOf o f).length ≤
      s.ring.buf.length := by
    rw [slotOf_length, h.size]
    exact slot_end hcursor
  have hroom : u32 (s.ring.fill * s.ring.slen) + s.ring.slen ≤ s.ring.buf.length := by
    rw [slotOf_length] at hend
    rw [hplace, h.slen]
    exact hend
  have hstore := store_eq (h.len ▸ hpos) h.slen hroom f
  rw [hplace] at hstore
  have hother {i : ℕ} (hi : i ≠ s.stored.length % slots o) :
      segment (patch s.ring.buf (s.stored.length % slots o * (o.pktcap + entryLen)) (slotOf o f))
        (i * (o.pktcap + entryLen)) (o.pktcap + entryLen) =
      segment s.ring.buf (i * (o.pktcap + entryLen)) (o.pktcap + entryLen) := by
    apply segment_patch_disjoint hend
    rw [slotOf_length]
    exact slot_apart _ hi
  refine ⟨_, hstore, h.len, h.slen, ?_, ?_, ?_, ?_, ?_⟩
  · dsimp only
    rw [h.fill, h.len, Nat.mod_add_mod, List.length_append, List.length_singleton]
  · exact (length_patch hend).trans h.size
  · intro k hk hlast
    dsimp only at hk hlast ⊢
    rw [List.length_append, List.length_singleton] at hk hlast
    rcases Nat.lt_succ_iff_lt_or_eq.mp hk with hlt | rfl
    · rw [hother (Ring.slot_ne hlt (by omega)), List.getElem_append_left hlt]
      exact h.used k hlt (by omega)
    · have hnew := segment_patch hend
      rw [slotOf_length] at hnew
      rw [hnew, List.getElem_concat_length rfl]
  · intro i hi hlt
    dsimp only at hi ⊢
    rw [List.length_append, List.length_singleton] at hi
    have hne : i ≠ s.stored.length % slots o := by
      rw [Nat.mod_eq_of_lt (by omega)]
      omega
    rw [hother hne]
    exact h.unused i (by omega) hlt
  · intro g hg
    rcases List.mem_append.mp hg with hold | hnew
    · exact h.nonempty g hold
    · rw [List.mem_singleton.mp hnew]
      exact hf

theorem length_of_not_filtered {pkt : List Byte} (h : ¬isFiltered o pkt = true) : 0 < pkt.length := by
  by_contra hzero
  apply h
  unfold isFiltered
  rw [if_pos (by omega)]

theorem holds_next (hpos : 1 ≤ slots o) (hsize : slots o * (o.pktcap + entryLen) < 2 ^ 32)
    (h : Holds o r s) (ev : Event) : Holds o r (s.next o ev) := by
  cases ev with
  | frame f =>
    by_cases hfilter : isFiltered o f.bytes = true
    · simp only [Session.next, if_pos hfilter]
      exact h
    · obtain ⟨ring, hstore, hholds⟩ := holds_store hpos hsize h (length_of_not_filtered hfilter)
      simp only [Session.next, if_neg hfilter, hstore]
      exact hholds
  | failed => exact h
  | dump => exact h

theorem dumpSlot_nil : dumpSlot buf e = some [] ↔ field buf e 4 = 0 := by
  unfold dumpSlot
  dsimp only
  by_cases hzero : field buf e 4 = 0
  · rw [if_pos hzero]
    exact iff_of_true rfl hzero
  · rw [if_neg hzero]
    refine iff_of_false ?_ hzero
    split
    · simp
    · intro h
      have hlen := congrArg List.length (Option.some.inj h)
      simp [pcapFrame] at hlen

theorem dumpSlots_succ (r : Ring) (n i : ℕ) {front back : List Byte}
    (hfront : dumpSlot r.buf (place r i) = some front) (hback : dumpSlots r n (i + 1) = some back) :
    dumpSlots r (n + 1) i = some (front ++ back) := by
  rw [dumpSlots, hfront, hback]

/-- The loop in two parts. -/
theorem dumpSlots_add (r : Ring) (a b i : ℕ) {back : List Byte}
    (hback : dumpSlots r b (i + a) = some back) :
    dumpSlots r (a + b) i = (dumpSlots r a i).map (· ++ back) := by
  induction a generalizing i with
  | zero =>
    rw [Nat.zero_add]
    exact hback
  | succ a ih =>
    have hrest := ih (i + 1) (by rw [Nat.add_right_comm, Nat.add_assoc]; exact hback)
    rw [Nat.add_right_comm, dumpSlots, dumpSlots, hrest]
    cases dumpSlot r.buf (place r i) with
    | none => rfl
    | some front =>
      cases dumpSlots r a (i + 1) with
      | none => rfl
      | some middle =>
        simp only [Option.map_some, List.append_assoc]

theorem dumpSlots_nil (r : Ring) (n i : ℕ) :
    dumpSlots r n i = some [] ↔ ∀ j, j < n → field r.buf (place r (i + j)) 4 = 0 := by
  induction n generalizing i with
  | zero => exact iff_of_true rfl fun j hj => absurd hj (Nat.not_lt_zero j)
  | succ n ih =>
    have hsplit : dumpSlots r (n + 1) i = some [] ↔
        dumpSlot r.buf (place r i) = some [] ∧ dumpSlots r n (i + 1) = some [] := by
      rw [dumpSlots]
      cases dumpSlot r.buf (place r i) with
      | none => simp
      | some front =>
        cases dumpSlots r n (i + 1) with
        | none => simp
        | some back => simp
    rw [hsplit, dumpSlot_nil, ih]
    constructor
    · intro ⟨hfirst, hrest⟩ j hj
      cases j with
      | zero => exact hfirst
      | succ j =>
        have hnext := hrest j (by omega)
        rwa [Nat.add_assoc, Nat.add_comm 1 j] at hnext
    · intro h
      refine ⟨h 0 (Nat.succ_pos n), fun j hj => ?_⟩
      rw [Nat.add_assoc, Nat.add_comm 1 j]
      exact h (j + 1) (by omega)

theorem dumpSlots_frames (r : Ring) (l : List Frame) (i : ℕ)
    (h : ∀ j (hj : j < l.length), dumpSlot r.buf (place r (i + j)) = some (record o l[j])) :
    dumpSlots r l.length i = some (l.flatMap (record o)) := by
  induction l generalizing i with
  | nil => rfl
  | cons f l ih =>
    have hrest := ih (i + 1) fun j hj => by
      have hnext := h (j + 1) (by simpa using hj)
      rwa [← Nat.add_assoc, Nat.add_right_comm, List.getElem_cons_succ] at hnext
    rw [List.length_cons, List.flatMap_cons]
    exact dumpSlots_succ r l.length i (h 0 (Nat.succ_pos _)) hrest

theorem lastFrames_length (o : Options) (stored : List Frame) :
    (lastFrames o stored).length = min stored.length (slots o) := by
  rw [lastFrames, List.length_drop]
  omega

/-- The slots behind the cursor, in the order in which they were filled. -/
theorem place_eq (hpos : 1 ≤ slots o) (hsize : slots o * (o.pktcap + entryLen) < 2 ^ 32)
    (h : Holds o r s) (i : ℕ) :
    place s.ring i = (s.stored.length + i) % slots o * (o.pktcap + entryLen) := by
  rw [place, h.fill, h.len, h.slen, Nat.mod_add_mod, u32_slot (Nat.mod_lt _ hpos) hsize]

/-- The used slots give the records of the last frames. -/
theorem dumpSlots_used (hcap : 40 < o.pktcap ∧ o.pktcap < 2 ^ 16) (hpos : 1 ≤ slots o)
    (hsize : slots o * (o.pktcap + entryLen) < 2 ^ 32) (h : Holds o r s) :
    dumpSlots s.ring (lastFrames o s.stored).length (slots o - (lastFrames o s.stored).length) =
      some ((lastFrames o s.stored).flatMap (record o)) := by
  have hlast := lastFrames_length o s.stored
  refine dumpSlots_frames s.ring _ _ fun j hj => ?_
  have hk : s.stored.length - slots o + j < s.stored.length := by omega
  have hslot : (s.stored.length + (slots o - (lastFrames o s.stored).length + j)) % slots o =
      (s.stored.length - slots o + j) % slots o := by
    have hturn : s.stored.length + (slots o - (lastFrames o s.stored).length + j) =
        s.stored.length - slots o + j + slots o := by omega
    rw [hturn, Nat.add_mod_right]
  have hframe : (lastFrames o s.stored)[j] = s.stored[s.stored.length - slots o + j] :=
    List.getElem_drop ..
  rw [place_eq hpos hsize h, hslot, hframe]
  refine dumpSlot_slotOf hcap (h.nonempty _ (List.getElem_mem hk)) ?_ (h.used _ hk (by omega))
  rw [h.size]
  exact slot_end (Nat.mod_lt _ hpos)

/-- A dump is right exactly when the unused slots of the fresh ring have no length. -/
theorem dump_iff (hcap : 40 < o.pktcap ∧ o.pktcap < 2 ^ 16) (hpos : 1 ≤ slots o)
    (hsize : slots o * (o.pktcap + entryLen) < 2 ^ 32) (h : Holds o r s) :
    dump s.ring = some (pcapHeader ++ (lastFrames o s.stored).flatMap (record o)) ↔
      ∀ i, s.stored.length ≤ i → i < slots o → field r.buf (i * (o.pktcap + entryLen)) 4 = 0 := by
  have hlast := lastFrames_length o s.stored
  have hused := dumpSlots_used hcap hpos hsize h
  have hall : dumpSlots s.ring s.ring.len 0 =
      (dumpSlots s.ring (slots o - (lastFrames o s.stored).length) 0).map
        (· ++ (lastFrames o s.stored).flatMap (record o)) := by
    have hsplit : s.ring.len = slots o - (lastFrames o s.stored).length +
        (lastFrames o s.stored).length := by
      rw [h.len]
      omega
    rw [hsplit]
    exact dumpSlots_add _ _ _ _ (by rw [Nat.zero_add]; exact hused)
  have hempty : dump s.ring = some (pcapHeader ++ (lastFrames o s.stored).flatMap (record o)) ↔
      dumpSlots s.ring (slots o - (lastFrames o s.stored).length) 0 = some [] := by
    rw [dump, hall]
    cases dumpSlots s.ring (slots o - (lastFrames o s.stored).length) 0 with
    | none => simp
    | some rest => simp
  have hfield {i : ℕ} (hle : s.stored.length ≤ i) (hlt : i < slots o) :
      field s.ring.buf (i * (o.pktcap + entryLen)) 4 = field r.buf (i * (o.pktcap + entryLen)) 4 := by
    have hword : 0 + 4 ≤ o.pktcap + entryLen := by omega
    have hnew := field_segment s.ring.buf (i * (o.pktcap + entryLen)) hword
    have hold := field_segment r.buf (i * (o.pktcap + entryLen)) hword
    rw [h.unused i hle hlt] at hnew
    exact hnew.symm.trans hold
  rw [hempty, dumpSlots_nil]
  constructor
  · intro hzero i hle hlt
    have hslot := hzero (i - s.stored.length) (by omega)
    have hplace : s.stored.length + (0 + (i - s.stored.length)) = i := by omega
    rw [place_eq hpos hsize h, hplace, Nat.mod_eq_of_lt hlt, hfield hle hlt] at hslot
    exact hslot
  · intro hzero j hj
    have hlt : s.stored.length + (0 + j) < slots o := by omega
    rw [place_eq hpos hsize h, Nat.mod_eq_of_lt hlt, hfield (by omega) hlt]
    exact hzero _ (by omega) hlt

/-- The fresh ring. -/
theorem init_ring (hcap : 40 < o.pktcap) (hsize : slots o * (o.pktcap + entryLen) < 2 ^ 32)
    {garbage : Mem} (hinit : ringbufInit (slots o) o.pktcap garbage = some r) :
    Holds o r ⟨r, []⟩ ∧ ∀ i, i < slots o →
      (field r.buf (i * (o.pktcap + entryLen)) 4 = 0 ↔ Cleared o garbage i) := by
  have hle : slots o * o.pktcap ≤ slots o * (o.pktcap + entryLen) :=
    Nat.mul_le_mul_left _ (Nat.le_add_right _ _)
  unfold ringbufInit at hinit
  rw [if_neg (by omega), u32, Nat.mod_eq_of_lt hsize, u32, Nat.mod_eq_of_lt (by omega)] at hinit
  obtain rfl := Option.some.inj hinit
  have hclear : 0 + (List.replicate (slots o * o.pktcap) (0 : Byte)).length ≤
      ((List.range (slots o * (o.pktcap + entryLen))).map garbage).length := by
    rw [List.length_replicate, List.length_map, List.length_range]
    omega
  have hlen := length_patch hclear
  rw [List.length_map, List.length_range] at hlen
  refine ⟨⟨rfl, rfl, (Nat.zero_mod _).symm, hlen, fun k hk => absurd hk (Nat.not_lt_zero k),
    fun i _ _ => rfl, fun f hf => by cases hf⟩, fun i hi => ?_⟩
  have hend := slot_end (l := o.pktcap + entryLen) hi
  dsimp only
  rw [field_eq_zero (by omega), Cleared]
  refine forall_congr' fun j => imp_congr_right fun hj => ?_
  rw [getElem?_patch hclear, List.length_replicate, Nat.zero_add]
  by_cases hin : i * (o.pktcap + entryLen) + j < slots o * o.pktcap
  · rw [if_pos ⟨Nat.zero_le _, hin⟩, List.getElem?_replicate, if_pos (by omega)]
    exact iff_of_true rfl (Or.inl hin)
  · have hplace : i * (o.pktcap + entryLen) + j < slots o * (o.pktcap + entryLen) := by omega
    rw [if_neg fun h => hin h.2, List.getElem?_map, List.getElem?_range hplace, Option.map_some,
      Option.some_inj]
    exact (or_iff_right hin).symm

end

/-- Which options and contents of the fresh memory make all dumps right. -/
theorem captures_iff {opts : List Opt} {o : Options} (hopts : options opts = .ok o) {garbage : Mem}
    {r : Ring} (hinit : ringbufInit (slots o) o.pktcap garbage = some r) (events : List Event) :
    Captures o r events ↔ o.pktcap ≤ o.ringsz ∧ slots o * (o.pktcap + entryLen) < 2 ^ 32 ∧
      Every (Session.next o) (RestCleared o garbage) ⟨r, []⟩ events := by
  have hcap := options_ok hopts
  have hslots : 1 ≤ slots o ↔ o.pktcap ≤ o.ringsz :=
    Nat.div_pos_iff.trans (and_iff_right (by omega))
  have hdumps (hpos : 1 ≤ slots o) (hsize : slots o * (o.pktcap + entryLen) < 2 ^ 32) :
      Every (Session.next o) (DumpRight o) ⟨r, []⟩ events ↔
        Every (Session.next o) (RestCleared o garbage) ⟨r, []⟩ events := by
    obtain ⟨hfresh, hcleared⟩ := init_ring hcap.1 hsize hinit
    refine every_iff (fun s ev (hs : Holds o r s) _ => holds_next hpos hsize hs ev)
      (fun s ev hs => ?_) events hfresh
    cases ev with
    | frame f => exact Iff.rfl
    | failed => exact Iff.rfl
    | dump =>
      refine (dump_iff hcap hpos hsize hs).trans ?_
      exact forall_congr' fun i => imp_congr_right fun _ => forall_congr' fun hi => hcleared i hi
  constructor
  · intro h
    exact ⟨hslots.mp h.slots_pos, h.size_lt, (hdumps h.slots_pos h.size_lt).mp h.dumps⟩
  · intro ⟨hle, hsize, hrest⟩
    exact ⟨hslots.mpr hle, hsize, (hdumps (hslots.mpr hle) hsize).mpr hrest⟩

/-- A frame of nine bytes behind the radiotap header. -/
def smallFrame : Frame := ⟨[0, 0, 8, 0, 0, 0, 0, 0, 0x80], by decide, 1, 0⟩

def smallOptions : Options := ⟨164, 41, false, false⟩

theorem smallOptions_ok : options [.c 41, .r 164] = .ok smallOptions := rfl

/-- A ring of four slots. -/
def smallRing (garbage : Mem) : Ring :=
  ⟨4, 0, 57, patch ((List.range 228).map garbage) 0 (List.replicate 164 0)⟩

theorem captures_small :
    Captures smallOptions (smallRing fun _ => 0) [.frame smallFrame, .dump] ↔
      smallOptions.pktcap ≤ smallOptions.ringsz ∧
        slots smallOptions * (smallOptions.pktcap + entryLen) < 2 ^ 32 ∧
          Every (Session.next smallOptions) (RestCleared smallOptions fun _ => 0)
            ⟨smallRing fun _ => 0, []⟩ [.frame smallFrame, .dump] :=
  captures_iff smallOptions_ok rfl _

/-- When malloc gives bytes that are not 0, the last slot has a length that was never
stored. -/
theorem stale_slot_dumped :
    ringbufInit (slots smallOptions) smallOptions.pktcap (fun _ => 1) =
        some (smallRing fun _ => 1) ∧
      field (smallRing fun _ => 1).buf 171 4 = 0x01010101 ∧
        ¬Captures smallOptions (smallRing fun _ => 1) [.dump] := by
  have hnone : dump (smallRing fun _ => 1) = none := by decide +kernel
  refine ⟨rfl, by decide +kernel, fun h => ?_⟩
  have hdump : dump (smallRing fun _ => 1) = some _ := h.dumps.1
  rw [hnone] at hdump
  cases hdump

end Iot7688.Iwcap
