import Iot7688.Lib.SplitBy
import Iot7688.Srec2bin

/-!
The records that are written. Each is begun where an address is not the next one, so that the
file holds twelve bytes for each such place besides the data; records that say the events in
order are at least as many as the runs of adjacent bytes and the start addresses. The two
numbers agree exactly for a convertible file, and then the runs are the records.
-/
namespace Iot7688.Srec2bin

open Lib

variable {c : Conv} {e : Event} {es : List Event} {front data : Str} {a b : ℕ}

/-- What is in the file once the open record is ended. -/
def total (c : Conv) : ℕ := c.fOut.bytes.length + if c.recStart then 4 else 0

/-- The position is the end of the file, and an open record has its head in front of its data. -/
structure Ends (c : Conv) : Prop where
  pos : c.fOut.pos = c.fOut.bytes.length
  inside : c.recStart = true → c.recLength + 8 ≤ c.fOut.bytes.length

theorem patch_end (bytes d : Str) : patch bytes bytes.length d = bytes ++ d := by
  rw [patch, List.take_length, List.drop_eq_nil_of_le (Nat.le_add_right _ _), List.append_nil]

theorem fwrite_end {f : OutFile} (h : f.pos = f.bytes.length) (d : Str) :
    f.fwrite d = ⟨f.bytes ++ d, (f.bytes ++ d).length⟩ := by
  rw [OutFile.fwrite, h, patch_end, List.length_append]

theorem back_back {f : OutFile} {n : ℕ} (h : n + 8 ≤ f.pos) :
    ((f.back n).back 4).back 4 = ⟨f.bytes, f.pos - (n + 8)⟩ := by
  have hfirst : f.back n = ⟨f.bytes, f.pos - n⟩ := if_pos (by omega)
  have hsecond : OutFile.back ⟨f.bytes, f.pos - n⟩ 4 = ⟨f.bytes, f.pos - n - 4⟩ :=
    if_pos (by dsimp only; omega)
  have hthird : OutFile.back ⟨f.bytes, f.pos - n - 4⟩ 4 = ⟨f.bytes, f.pos - n - 4 - 4⟩ :=
    if_pos (by dsimp only; omega)
  rw [hfirst, hsecond, hthird, Nat.sub_sub, Nat.sub_sub]

/-- The check word for a sum. -/
def checkOf (sum : ℕ) : ℕ := u32 (2 ^ 32 - 1 - u32 sum + 1)

/-- Ending a record writes its length in front of the data and its check word at the end. -/
theorem binRecEnd_eq (h : Ends c) (hopen : c.recStart = true) :
    (binRecEnd c).fOut =
      ⟨patch c.fOut.bytes (c.fOut.bytes.length - (c.recLength + 8)) (leBytes 4 c.recLength) ++
        leBytes 4 (checkOf (c.checkSum + c.recLength)), c.fOut.bytes.length + 4⟩ := by
  have hinside := h.inside hopen
  have hpos := h.pos
  have hlen : (leBytes 4 c.recLength).length = 4 := leBytes_length 4 _
  have hpatch : (patch c.fOut.bytes (c.fOut.bytes.length - (c.recLength + 8))
      (leBytes 4 c.recLength)).length = c.fOut.bytes.length := length_patch (by omega)
  have hback := back_back (f := c.fOut) (n := c.recLength) (by omega)
  have hend := fwrite_end (f := ⟨patch c.fOut.bytes (c.fOut.bytes.length - (c.recLength + 8))
    (leBytes 4 c.recLength), c.fOut.bytes.length⟩) hpatch.symm
    (leBytes 4 (checkOf (c.checkSum + c.recLength)))
  rw [List.length_append, hpatch, leBytes_length] at hend
  rw [← hend]
  unfold binRecEnd
  rw [if_pos hopen]
  dsimp only [binOut32]
  rw [hback, hpos]
  rfl

theorem binRecEnd_closed (hopen : c.recStart = false) : binRecEnd c = c := by
  unfold binRecEnd
  rw [hopen]
  rfl

theorem binRecEnd_length (h : Ends c) : (binRecEnd c).fOut.bytes.length = total c := by
  unfold total
  cases hopen : c.recStart with
  | false => rw [binRecEnd_closed hopen]; rfl
  | true =>
    have hinside := h.inside hopen
    rw [binRecEnd_eq h hopen, List.length_append, leBytes_length,
      length_patch (by rw [leBytes_length]; omega)]
    rfl

theorem binRecEnd_pos (h : Ends c) : (binRecEnd c).fOut.pos = (binRecEnd c).fOut.bytes.length := by
  cases hopen : c.recStart with
  | false =>
    rw [binRecEnd_closed hopen]
    exact h.pos
  | true =>
    rw [binRecEnd_length h, binRecEnd_eq h hopen, total, hopen]
    rfl

theorem binRecStart_eq (h : c.fOut.pos = c.fOut.bytes.length) (a : ℕ) :
    (binRecStart c a).fOut = ⟨c.fOut.bytes ++ leBytes 4 0 ++ leBytes 4 a,
      (c.fOut.bytes ++ leBytes 4 0 ++ leBytes 4 a).length⟩ := by
  unfold binRecStart
  dsimp only [binOut32]
  rw [fwrite_end h, fwrite_end rfl]

/-- How often a record is begun, from an address on. -/
def breaks : ℕ → List Event → ℕ
  | _, [] => 0
  | prev, e :: es => (if e.address ≠ u32 (prev + 1) then 1 else 0) + breaks e.address es

theorem binRecTurn_ends (h : Ends c) (a : ℕ) : Ends (binRecTurn c a) ∧
    total (binRecTurn c a) = total c + 12 * (if a ≠ u32 (c.addressCurrent + 1) then 1 else 0) := by
  unfold binRecTurn
  split
  · have hstart := binRecStart_eq (binRecEnd_pos h) a
    have hlen := binRecEnd_length h
    have hopen : (binRecStart (binRecEnd c) a).recStart = true := rfl
    have hzero : (binRecStart (binRecEnd c) a).recLength = 0 := rfl
    refine ⟨⟨by rw [hstart], fun _ => ?_⟩, ?_⟩
    · rw [hstart, hzero]
      simp only [List.length_append, leBytes_length]
      omega
    · rw [total, hopen, hstart]
      simp only [List.length_append, leBytes_length, if_true]
      omega
  · exact ⟨h, rfl⟩

theorem emit_ends (h : Ends c) (e : Event) : Ends (emit c e) ∧
    (emit c e).addressCurrent = e.address ∧ total (emit c e) = total c +
      (if e.isByte then 1 else 0) +
        12 * (if e.address ≠ u32 (c.addressCurrent + 1) then 1 else 0) := by
  cases e with
  | start a =>
    obtain ⟨hends, htotal⟩ := binRecTurn_ends h a
    exact ⟨⟨hends.pos, hends.inside⟩, rfl, htotal⟩
  | byte a b =>
    obtain ⟨hends, htotal⟩ := binRecTurn_ends h a
    have hout : (emit c (.byte a b)).fOut = ⟨(binRecTurn c a).fOut.bytes ++ [b],
        ((binRecTurn c a).fOut.bytes ++ [b]).length⟩ := fwrite_end hends.pos [b]
    have hlength : (emit c (.byte a b)).recLength = u32 ((binRecTurn c a).recLength + 1) := rfl
    have hopen : (emit c (.byte a b)).recStart = (binRecTurn c a).recStart := rfl
    refine ⟨⟨by rw [hout], fun hstart => ?_⟩, rfl, ?_⟩
    · have hinside := hends.inside (hopen ▸ hstart)
      have hle : u32 ((binRecTurn c a).recLength + 1) ≤ (binRecTurn c a).recLength + 1 :=
        Nat.mod_le _ _
      rw [hout, hlength, List.length_append, List.length_singleton]
      omega
    · change _ = total c + 1 + 12 * (if a ≠ u32 (c.addressCurrent + 1) then 1 else 0)
      unfold total at htotal ⊢
      rw [hout, hopen, List.length_append, List.length_singleton]
      omega

theorem foldl_ends (h : Ends c) (es : List Event) : Ends (es.foldl emit c) ∧
    total (es.foldl emit c) = total c + es.countP Event.isByte + 12 * breaks c.addressCurrent es := by
  induction es generalizing c with
  | nil => exact ⟨h, rfl⟩
  | cons e es ih =>
    obtain ⟨hends, haddress, htotal⟩ := emit_ends h e
    obtain ⟨hrun, hsum⟩ := ih hends
    refine ⟨hrun, ?_⟩
    rw [List.foldl_cons, hsum, htotal, haddress, breaks, List.countP_cons]
    omega

theorem begun_ends (bigEndian : Bool) : Ends (begun bigEndian) := ⟨rfl, fun h => by cases h⟩

/-- The length of the output. -/
theorem output_length (bigEndian : Bool) (es : List Event) :
    (binRecEnd (es.foldl emit (begun bigEndian))).fOut.bytes.length =
      4 + es.countP Event.isByte + 12 * breaks 0xFFFFFFFF es := by
  obtain ⟨hends, htotal⟩ := foldl_ends (begun_ends bigEndian) es
  rw [binRecEnd_length hends, htotal]
  rfl

section Runs

variable {prev : ℕ}

/-- No run is joined to what is in front of it. -/
structure Apart (prev : ℕ) (es : List Event) : Prop where
  first : ∀ e ∈ es.head?, e.address ≠ u32 (prev + 1)
  next : es.IsChain fun e e' => e'.address = u32 (e.address + 1) → e.isByte ∧ e'.isByte

theorem adjacent_iff {e e' : Event} :
    adjacent e e' = true ↔ (e.isByte ∧ e'.isByte) ∧ e'.address = u32 (e.address + 1) := by
  simp [adjacent]

theorem breaks_tail_le (e : Event) (es : List Event) :
    breaks e.address es + 1 ≤ ((e :: es).splitBy adjacent).length ∧
      (breaks e.address es + 1 = ((e :: es).splitBy adjacent).length ↔
        (e :: es).IsChain fun e e' => e'.address = u32 (e.address + 1) → e.isByte ∧ e'.isByte) := by
  induction es generalizing e with
  | nil => exact ⟨le_rfl, iff_of_true rfl (List.isChain_singleton _)⟩
  | cons e' es ih =>
    obtain ⟨hle, hiff⟩ := ih e'
    rw [breaks, length_splitBy_cons, List.isChain_cons_cons, ← hiff]
    by_cases hnext : e'.address = u32 (e.address + 1)
    · rw [if_neg (not_not.mpr hnext)]
      by_cases hbytes : e.isByte = true ∧ e'.isByte = true
      · rw [if_pos (adjacent_iff.mpr ⟨hbytes, hnext⟩)]
        exact ⟨by omega, ⟨fun h => ⟨fun _ => hbytes, by omega⟩, fun h => by omega⟩⟩
      · rw [if_neg fun h => hbytes (adjacent_iff.mp h).1]
        exact ⟨by omega, ⟨fun h => by omega, fun h => absurd (h.1 hnext) hbytes⟩⟩
    · rw [if_pos hnext, if_neg fun h => hnext (adjacent_iff.mp h).2]
      exact ⟨by omega, ⟨fun h => ⟨fun h' => absurd h' hnext, by omega⟩, fun h => by omega⟩⟩

/-- Records are begun at most as often as there are runs, and as often when all are apart. -/
theorem breaks_le (prev : ℕ) (es : List Event) :
    breaks prev es ≤ (es.splitBy adjacent).length ∧
      (breaks prev es = (es.splitBy adjacent).length ↔ Apart prev es) := by
  cases es with
  | nil => exact ⟨le_rfl, iff_of_true rfl ⟨by simp, List.isChain_nil⟩⟩
  | cons e es =>
    obtain ⟨hle, hiff⟩ := breaks_tail_le e es
    have hapart : Apart prev (e :: es) ↔ e.address ≠ u32 (prev + 1) ∧
        (e :: es).IsChain fun e e' => e'.address = u32 (e.address + 1) → e.isByte ∧ e'.isByte :=
      ⟨fun h => ⟨h.first e rfl, h.next⟩, fun h => ⟨fun x hx => Option.some.inj hx ▸ h.1, h.2⟩⟩
    rw [hapart, ← hiff, breaks]
    by_cases hfirst : e.address ≠ u32 (prev + 1)
    · rw [if_pos hfirst]
      exact ⟨by omega, ⟨fun h => ⟨hfirst, by omega⟩, fun h => by omega⟩⟩
    · rw [if_neg hfirst]
      exact ⟨by omega, ⟨fun h => by omega, fun h => absurd h.1 hfirst⟩⟩

end Runs

section Records

variable {r : Record} {rs : List Record} {prev : ℕ}

theorem bytesFrom_length (a : ℕ) (data : Str) : (bytesFrom a data).length = data.length := by
  induction data generalizing a with
  | nil => rfl
  | cons b data ih => rw [bytesFrom, List.length_cons, List.length_cons, ih]

theorem bytesFrom_countP (a : ℕ) (data : Str) :
    (bytesFrom a data).countP Event.isByte = data.length := by
  induction data generalizing a with
  | nil => rfl
  | cons b data ih =>
    rw [bytesFrom, List.countP_cons, ih]
    rfl

theorem bytesFrom_chain (a : ℕ) (data : Str) :
    (bytesFrom a data).IsChain fun e e' => adjacent e e' = true := by
  induction data generalizing a with
  | nil => exact List.isChain_nil
  | cons b data ih =>
    have hrest := ih (u32 (a + 1))
    cases data with
    | nil => exact List.isChain_singleton _
    | cons b' data => exact List.isChain_cons_cons.mpr ⟨adjacent_iff.mpr ⟨⟨rfl, rfl⟩, rfl⟩, hrest⟩

theorem events_ne_nil (r : Record) : r.events ≠ [] := by
  unfold Record.events
  split
  · exact List.cons_ne_nil _ _
  · rename_i hdata
    obtain ⟨b, data, hcons⟩ := List.exists_cons_of_ne_nil hdata
    rw [hcons]
    exact List.cons_ne_nil _ _

theorem events_chain (r : Record) : r.events.IsChain fun e e' => adjacent e e' = true := by
  unfold Record.events
  split
  · exact List.isChain_singleton _
  · exact bytesFrom_chain _ _

theorem events_countP (r : Record) : r.events.countP Event.isByte = r.data.length := by
  unfold Record.events
  split
  · rename_i hdata
    rw [hdata]
    rfl
  · exact bytesFrom_countP _ _

theorem events_length (r : Record) : r.events.length ≤ max 1 r.data.length := by
  unfold Record.events
  split
  · exact le_max_left _ _
  · rw [bytesFrom_length]
    exact le_max_right _ _

theorem records_length (rs : List Record) : (rs.flatMap Record.bytes).length =
    (rs.flatMap Record.events).countP Event.isByte + 12 * rs.length := by
  induction rs with
  | nil => rfl
  | cons r rs ih =>
    have hbytes : r.bytes.length = r.data.length + 12 := by
      simp only [Record.bytes, List.length_append, leBytes_length]
      omega
    rw [List.flatMap_cons, List.length_append, ih, hbytes, List.flatMap_cons, List.countP_append,
      events_countP, List.length_cons]
    omega

theorem leBytes_inj {n v v' : ℕ} (hv : v < 2 ^ (8 * n)) (hv' : v' < 2 ^ (8 * n))
    (h : leBytes n v = leBytes n v') : v = v' := by
  have hvalue := congrArg leValue h
  rwa [leValue_leBytes, leValue_leBytes, Nat.mod_eq_of_lt hv, Nat.mod_eq_of_lt hv'] at hvalue

theorem record_inj {r' : Record} {rest rest' : Str} (hr : r.Valid) (hr' : r'.Valid)
    (h : r.bytes ++ rest = r'.bytes ++ rest') : r = r' ∧ rest = rest' := by
  simp only [Record.bytes, List.append_assoc] at h
  have hword : ∀ v v' : ℕ, (leBytes 4 v).length = (leBytes 4 v').length := fun v v' => by
    rw [leBytes_length, leBytes_length]
  obtain ⟨hlength, h⟩ := List.append_inj h (hword _ _)
  obtain ⟨haddress, h⟩ := List.append_inj h (hword _ _)
  obtain ⟨hdata, h⟩ := List.append_inj h (leBytes_inj hr.length hr'.length hlength)
  obtain ⟨hcheck, hrest⟩ := List.append_inj h (hword _ _)
  exact ⟨Record.ext (leBytes_inj hr.address hr'.address haddress) hdata
    (leBytes_inj hr.check hr'.check hcheck), hrest⟩

/-- The records can be read back from their bytes. -/
theorem records_unique {rs' : List Record} (hrs : ∀ r ∈ rs, r.Valid) (hrs' : ∀ r ∈ rs', r.Valid)
    (h : rs.flatMap Record.bytes = rs'.flatMap Record.bytes) : rs = rs' := by
  have hne : ∀ (r : Record) (rest : Str), r.bytes ++ rest ≠ [] := by
    intro r rest hnil
    have hlen := congrArg List.length hnil
    simp [Record.bytes] at hlen
  induction rs generalizing rs' with
  | nil =>
    cases rs' with
    | nil => rfl
    | cons r' rs' => exact absurd h.symm (hne r' _)
  | cons r rs ih =>
    cases rs' with
    | nil => exact absurd h (hne r _)
    | cons r' rs' =>
      rw [List.forall_mem_cons] at hrs hrs'
      obtain ⟨rfl, hrest⟩ := record_inj hrs.1 hrs'.1 h
      rw [ih hrs.2 hrs'.2 hrest]

/-- The address that is current behind events. -/
def lastAddress (prev : ℕ) (es : List Event) : ℕ := es.foldl (fun _ e => e.address) prev

theorem foldl_address (h : Ends c) (es : List Event) :
    (es.foldl emit c).addressCurrent = lastAddress c.addressCurrent es := by
  induction es generalizing c with
  | nil => rfl
  | cons e es ih =>
    obtain ⟨hends, haddress, -⟩ := emit_ends h e
    rw [List.foldl_cons, ih hends, haddress]
    rfl

theorem breaks_append (prev : ℕ) (es es' : List Event) :
    breaks prev (es ++ es') = breaks prev es + breaks (lastAddress prev es) es' := by
  induction es generalizing prev with
  | nil => exact (Nat.zero_add _).symm
  | cons e es ih =>
    rw [List.cons_append, breaks, breaks, ih, Nat.add_assoc]
    rfl

theorem breaks_bytesFrom (a : ℕ) (data : Str) : breaks a (bytesFrom (u32 (a + 1)) data) = 0 := by
  induction data generalizing a with
  | nil => rfl
  | cons b data ih =>
    rw [bytesFrom, breaks]
    simpa [Event.address] using ih (u32 (a + 1))

/-- Of a record only the first event can begin one. -/
theorem breaks_events (prev : ℕ) (r : Record) :
    breaks prev r.events = if r.address ≠ u32 (prev + 1) then 1 else 0 := by
  unfold Record.events
  split
  · exact Nat.add_zero _
  · rename_i hdata
    obtain ⟨b, data, hcons⟩ := List.exists_cons_of_ne_nil hdata
    rw [hcons, bytesFrom, breaks, Event.address, breaks_bytesFrom, Nat.add_zero]

theorem breaks_records_le (prev : ℕ) (rs : List Record) :
    breaks prev (rs.flatMap Record.events) ≤ rs.length := by
  induction rs generalizing prev with
  | nil => exact le_rfl
  | cons r rs ih =>
    have hrest := ih (lastAddress prev r.events)
    rw [List.flatMap_cons, breaks_append, breaks_events, List.length_cons]
    split <;> omega

/-- The output of records, when it is right, has the runs as its records. -/
theorem convertible_of_records {bigEndian : Bool} {es : List Event}
    (hbytes : (binRecEnd (es.foldl emit (begun bigEndian))).fOut.bytes =
      leBytes 4 (tag bigEndian) ++ rs.flatMap Record.bytes)
    (hvalid : ∀ r ∈ rs, r.Valid) (hevents : rs.flatMap Record.events = es) :
    Apart 0xFFFFFFFF es ∧ ∀ run ∈ es.splitBy adjacent, run.length < 2 ^ 32 := by
  have hlen := congrArg List.length hbytes
  rw [output_length, List.length_append, leBytes_length, records_length, hevents] at hlen
  obtain ⟨hle, hiff⟩ := breaks_le 0xFFFFFFFF es
  have hflat : (rs.map Record.events).flatten = es := by
    rw [← hevents, List.flatMap_def]
  have hnil : [] ∉ rs.map Record.events := by
    intro h
    obtain ⟨r, -, hr⟩ := List.mem_map.mp h
    exact events_ne_nil r hr
  have hchain : ∀ p ∈ rs.map Record.events, p.IsChain fun e e' => adjacent e e' = true := by
    intro p hp
    obtain ⟨r, -, rfl⟩ := List.mem_map.mp hp
    exact events_chain r
  have hfew := length_splitBy_le hnil hchain
  rw [hflat, List.length_map] at hfew
  refine ⟨hiff.mp (by omega), fun run hrun => ?_⟩
  have hsame := splitBy_eq_of_length hnil hchain (by rw [hflat, List.length_map]; omega)
  rw [hflat] at hsame
  rw [hsame] at hrun
  obtain ⟨r, hr, rfl⟩ := List.mem_map.mp hrun
  have hdata := (hvalid r hr).length
  exact (events_length r).trans_lt (max_lt (by decide) hdata)

end Records

section Written

variable {prev : ℕ} {rs : List Record}

def dataSum (data : Str) : ℕ := (data.map UInt8.toNat).sum

/-- A record with the check word that binRecEnd computes. -/
def recordOf (a : ℕ) (data : Str) : Record := ⟨a, data, checkOf (a + dataSum data + data.length)⟩

theorem recordOf_valid (ha : a < 2 ^ 32) (hdata : data.length < 2 ^ 32) :
    (recordOf a data).Valid where
  length := hdata
  address := ha
  check := Nat.mod_lt _ (by decide)
  sum := by
    have hsum : data.length + a + dataSum data = a + dataSum data + data.length := by omega
    change (data.length + a + dataSum data + checkOf (a + dataSum data + data.length)) % 2 ^ 32 = 0
    rw [hsum]
    unfold checkOf u32
    omega

/-- A record that is open behind a front: its length is not known yet. -/
structure Open (c : Conv) (front : Str) (a : ℕ) (data : Str) : Prop where
  ends : Ends c
  bytes : c.fOut.bytes = front ++ leBytes 4 0 ++ (leBytes 4 a ++ data)
  recStart : c.recStart = true
  recLength : c.recLength = data.length
  checkSum : c.checkSum = u32 (a + dataSum data)

theorem open_end (h : Open c front a data) :
    (binRecEnd c).fOut.bytes = front ++ (recordOf a data).bytes := by
  have hcheck : checkOf (c.checkSum + c.recLength) = checkOf (a + dataSum data + data.length) := by
    rw [h.checkSum, h.recLength]
    unfold checkOf u32
    rw [Nat.mod_add_mod]
  have hplace : c.fOut.bytes.length - (c.recLength + 8) = front.length := by
    rw [h.bytes, h.recLength]
    simp only [List.length_append, leBytes_length]
    omega
  rw [binRecEnd_eq h.ends h.recStart, hplace, hcheck, h.bytes, h.recLength,
    patch_append (by rw [leBytes_length, leBytes_length])]
  simp only [recordOf, Record.bytes, List.append_assoc]

/-- A record is begun. -/
theorem open_turn (h : Ends c) (ha : a < 2 ^ 32) (hbreak : a ≠ u32 (c.addressCurrent + 1)) :
    Open (binRecTurn c a) (binRecEnd c).fOut.bytes a [] := by
  have hends := (binRecTurn_ends h a).1
  have hturn : binRecTurn c a = binRecStart (binRecEnd c) a := if_pos hbreak
  refine ⟨hends, ?_, ?_, ?_, ?_⟩
  · rw [hturn, binRecStart_eq (binRecEnd_pos h), List.append_nil]
  · rw [hturn]
    rfl
  · rw [hturn]
    rfl
  · rw [hturn]
    exact (Nat.mod_eq_of_lt ha).symm

/-- A byte goes into the open record. -/
theorem open_byte {d : Byte} (h : Open (binRecTurn c b) front a data)
    (hlen : data.length + 1 < 2 ^ 32) (hends : Ends (emit c (.byte b d))) :
    Open (emit c (.byte b d)) front a (data ++ [d]) := by
  have hout : (emit c (.byte b d)).fOut = ⟨(binRecTurn c b).fOut.bytes ++ [d],
      ((binRecTurn c b).fOut.bytes ++ [d]).length⟩ := fwrite_end h.ends.pos [d]
  have hsum : dataSum (data ++ [d]) = dataSum data + d.toNat := by simp [dataSum]
  refine ⟨hends, ?_, h.recStart, ?_, ?_⟩
  · rw [hout, h.bytes]
    simp only [List.append_assoc]
  · change u32 ((binRecTurn c b).recLength + 1) = _
    rw [h.recLength, List.length_append, List.length_singleton]
    exact Nat.mod_eq_of_lt hlen
  · change u32 ((binRecTurn c b).checkSum + d.toNat) = _
    rw [h.checkSum, hsum, u32, u32, u32, Nat.mod_add_mod, Nat.add_assoc]

theorem open_bytes {more : Str} (h : Open c front a data)
    (hlen : data.length + more.length < 2 ^ 32) :
    Open ((bytesFrom (u32 (c.addressCurrent + 1)) more).foldl emit c) front a (data ++ more) := by
  induction more generalizing c data with
  | nil => rwa [List.append_nil]
  | cons d more ih =>
    rw [List.length_cons] at hlen
    obtain ⟨hends, haddress, -⟩ := emit_ends h.ends (.byte (u32 (c.addressCurrent + 1)) d)
    have hturn : binRecTurn c (u32 (c.addressCurrent + 1)) = c := if_neg (not_not.mpr rfl)
    have hbyte : Open (emit c (.byte (u32 (c.addressCurrent + 1)) d)) front a (data ++ [d]) :=
      open_byte (by rwa [hturn]) (by omega) hends
    have hrest := ih hbyte (by rw [List.length_append, List.length_singleton]; omega)
    rw [haddress, List.append_assoc, List.singleton_append] at hrest
    exact hrest

/-- The events of a record, behind a break, become the record. -/
theorem record_written (h : Ends c) (ha : a < 2 ^ 32) (hdata : data.length < 2 ^ 32)
    (hbreak : a ≠ u32 (c.addressCurrent + 1)) :
    (binRecEnd ((recordOf a data).events.foldl emit c)).fOut.bytes =
      (binRecEnd c).fOut.bytes ++ (recordOf a data).bytes := by
  have hturn := open_turn h ha hbreak
  apply open_end
  cases data with
  | nil =>
    have hends := (emit_ends h (.start a)).1
    exact ⟨hends, hturn.bytes, hturn.recStart, hturn.recLength, hturn.checkSum⟩
  | cons d data =>
    rw [List.length_cons] at hdata
    obtain ⟨hends, haddress, -⟩ := emit_ends h (.byte a d)
    have hfirst := open_byte hturn (by rw [List.length_nil]; omega) hends
    rw [List.nil_append] at hfirst
    have hrest := open_bytes hfirst (show [d].length + data.length < 2 ^ 32 by
      rw [List.length_singleton]
      omega)
    rw [haddress] at hrest
    exact hrest

/-- Records that are all begun are written one behind the other. -/
theorem records_written (h : Ends c)
    (hrs : ∀ r ∈ rs, r = recordOf r.address r.data ∧ r.address < 2 ^ 32 ∧ r.data.length < 2 ^ 32)
    (hbreaks : breaks c.addressCurrent (rs.flatMap Record.events) = rs.length) :
    (binRecEnd ((rs.flatMap Record.events).foldl emit c)).fOut.bytes =
      (binRecEnd c).fOut.bytes ++ rs.flatMap Record.bytes := by
  induction rs generalizing c with
  | nil => exact (List.append_nil _).symm
  | cons r rs ih =>
    obtain ⟨⟨hr, ha, hdata⟩, hrest⟩ := List.forall_mem_cons.mp hrs
    have hle := breaks_records_le (lastAddress c.addressCurrent r.events) rs
    rw [List.flatMap_cons, breaks_append, breaks_events, List.length_cons] at hbreaks
    have hbreak : r.address ≠ u32 (c.addressCurrent + 1) := by
      intro heq
      rw [if_neg (not_not.mpr heq)] at hbreaks
      omega
    rw [if_pos hbreak] at hbreaks
    have hwritten := record_written h ha hdata hbreak
    rw [← hr] at hwritten
    have hnext := ih (foldl_ends h r.events).1 hrest (by
      rw [foldl_address h]
      omega)
    rw [List.flatMap_cons, List.foldl_append, hnext, hwritten, List.flatMap_cons, List.append_assoc]

/-- A run of adjacent bytes, or a start address, is what one record says. -/
theorem run_record (hchain : es.IsChain fun e e' => adjacent e e' = true) (hne : es ≠ []) :
    ∃ data, (recordOf (es.head hne).address data).events = es ∧ data.length ≤ es.length := by
  induction es with
  | nil => exact absurd rfl hne
  | cons e es ih =>
    rw [List.head_cons, List.length_cons]
    cases es with
    | nil =>
      cases e with
      | byte a b => exact ⟨[b], rfl, le_rfl⟩
      | start a => exact ⟨[], rfl, Nat.zero_le _⟩
    | cons e' es =>
      obtain ⟨hadj, hrest⟩ := List.isChain_cons_cons.mp hchain
      obtain ⟨data, hdata, hlen⟩ := ih hrest (List.cons_ne_nil _ _)
      obtain ⟨⟨he, he'⟩, hnext⟩ := adjacent_iff.mp hadj
      rw [List.head_cons, hnext, Record.events] at hdata
      cases e with
      | start a => cases he
      | byte a b =>
        have hbytes : data ≠ [] := by
          rintro rfl
          rw [recordOf, if_pos rfl] at hdata
          rw [← (List.cons.inj hdata).1] at he'
          cases he'
        rw [recordOf, if_neg hbytes] at hdata
        refine ⟨b :: data, ?_, Nat.succ_le_succ hlen⟩
        rw [← hdata]
        rfl

theorem runs_records {runs : List (List Event)} (hnil : [] ∉ runs)
    (hchain : ∀ p ∈ runs, p.IsChain fun e e' => adjacent e e' = true)
    (haddress : ∀ e ∈ runs.flatten, e.address < 2 ^ 32) (hshort : ∀ p ∈ runs, p.length < 2 ^ 32) :
    ∃ rs : List Record, rs.map Record.events = runs ∧ ∀ r ∈ rs,
      r = recordOf r.address r.data ∧ r.address < 2 ^ 32 ∧ r.data.length < 2 ^ 32 := by
  induction runs with
  | nil => exact ⟨[], rfl, fun r hr => absurd hr List.not_mem_nil⟩
  | cons p runs ih =>
    rw [List.mem_cons, not_or] at hnil
    rw [List.forall_mem_cons] at hchain hshort
    rw [List.flatten_cons, List.forall_mem_append] at haddress
    obtain ⟨rs, hrs, hall⟩ := ih hnil.2 hchain.2 haddress.2 hshort.2
    obtain ⟨data, hdata, hlen⟩ := run_record hchain.1 (Ne.symm hnil.1)
    refine ⟨_ :: rs, by rw [List.map_cons, hdata, hrs], List.forall_mem_cons.mpr ⟨?_, hall⟩⟩
    exact ⟨rfl, haddress.1 _ (List.head_mem _), hlen.trans_lt hshort.1⟩

theorem bytesFrom_address (ha : a < 2 ^ 32) (data : Str) :
    ∀ e ∈ bytesFrom a data, e.address < 2 ^ 32 := by
  induction data generalizing a with
  | nil => exact fun e he => absurd he List.not_mem_nil
  | cons b data ih => exact List.forall_mem_cons.mpr ⟨ha, ih (Nat.mod_lt _ (by decide))⟩

theorem line_address (l : Line) : ∀ e ∈ l.events, e.address < 2 ^ 32 := by
  have haddress : l.address < 2 ^ 32 := by
    refine (beNumber_lt _).trans_le (Nat.pow_le_pow_right two_pos ?_)
    rw [List.length_take]
    omega
  unfold Line.events
  split
  · exact bytesFrom_address haddress _
  · exact List.forall_mem_singleton.mpr haddress
  · exact fun e he => absurd he List.not_mem_nil

end Written

section Files

variable {bigEndian : Bool} {f : SrecFile}

theorem convertible_of_converts (h : Converts bigEndian f) : Convertible f := by
  obtain ⟨rs, hrun, hvalid, hevents⟩ := h
  obtain ⟨hall, hbytes⟩ := srec2bin_lines bigEndian f
  have hfst : (srec2bin bigEndian f.text).1 = true := by rw [hrun]
  have hout := hbytes hfst
  rw [hrun] at hout
  obtain ⟨hapart, hruns⟩ := convertible_of_records hout.symm hvalid hevents
  exact ⟨hall.mp hfst, hapart.first, hapart.next, hruns⟩

theorem converts_of_convertible (bigEndian : Bool) (h : Convertible f) : Converts bigEndian f := by
  obtain ⟨hall, hbytes⟩ := srec2bin_lines bigEndian f
  have hfst := hall.mpr h.counts
  have hflat := List.flatten_splitBy adjacent f.events
  have haddress : ∀ e ∈ f.events, e.address < 2 ^ 32 := by
    intro e he
    obtain ⟨l, -, hl⟩ := List.mem_flatMap.mp he
    exact line_address l e hl
  obtain ⟨rs, hrs, hrecords⟩ := runs_records (List.nil_notMem_splitBy adjacent f.events)
    (fun p hp => List.isChain_of_mem_splitBy hp) (by rwa [hflat]) h.runs
  have hevents : rs.flatMap Record.events = f.events := by
    rw [List.flatMap_def, hrs, hflat]
  have hbreaks : breaks 0xFFFFFFFF f.events = rs.length := by
    rw [(breaks_le 0xFFFFFFFF f.events).2.mpr ⟨h.first, h.apart⟩, ← hrs, List.length_map]
  refine ⟨rs, ?_, fun r hr => ?_, hevents⟩
  · have hwritten := records_written (begun_ends bigEndian) hrecords (by rw [hevents]; exact hbreaks)
    rw [hevents, ← hbytes hfst] at hwritten
    rw [← hfst, ← Prod.eta (srec2bin bigEndian f.text), hwritten]
    rfl
  · obtain ⟨hr, ha, hdata⟩ := hrecords r hr
    rw [hr]
    exact recordOf_valid ha hdata

/-- Files with one output say the same. -/
theorem events_of_output {bigEndian' : Bool} {f' : SrecFile} (hf : Convertible f)
    (hf' : Convertible f') (h : srec2bin bigEndian f.text = srec2bin bigEndian' f'.text) :
    f.events = f'.events := by
  obtain ⟨rs, hrun, hvalid, hevents⟩ := converts_of_convertible bigEndian hf
  obtain ⟨rs', hrun', hvalid', hevents'⟩ := converts_of_convertible bigEndian' hf'
  have hbytes := congrArg Prod.snd (hrun.symm.trans (h.trans hrun'))
  obtain ⟨-, hrecords⟩ := List.append_inj hbytes (by rw [leBytes_length, leBytes_length])
  rw [← hevents, ← hevents', records_unique hvalid hvalid' hrecords]

/-- The output says what the lines say exactly when no S5 line comes behind an S3 line, the first
address is not 0, no start address is the next address or has its next one behind it, and no
2^32 bytes are adjacent. -/
theorem converts_iff (bigEndian : Bool) (f : SrecFile) : Converts bigEndian f ↔ Convertible f :=
  ⟨convertible_of_converts, converts_of_convertible bigEndian⟩

end Files

/-- A byte at the address 0. -/
def zeroLine : Line where
  kind := .s3
  body := [0, 0, 0, 0, 0xaa, 0x4f]
  hex := [0x30, 0x36, 0x30, 0x30, 0x30, 0x30, 0x30, 0x30, 0x30, 0x30, 0x41, 0x41, 0x34, 0x46]
  digits := by simp [HexText, hexDigit?]
  form := Nat.le_of_ble_eq_true rfl
  sum := by decide
  fits := by decide

def zeroFile : SrecFile := ⟨[(zeroLine, false)], none, ⟨(fun h => by cases h), trivial⟩⟩

/-- A byte at the address 1. -/
def oneLine : Line where
  kind := .s3
  body := [0, 0, 0, 1, 0xaa, 0x4e]
  hex := [0x30, 0x36, 0x30, 0x30, 0x30, 0x30, 0x30, 0x30, 0x30, 0x31, 0x41, 0x41, 0x34, 0x45]
  digits := by simp [HexText, hexDigit?]
  form := Nat.le_of_ble_eq_true rfl
  sum := by decide
  fits := by decide

def oneFile (cr : Bool) : SrecFile := ⟨[(oneLine, cr)], none, ⟨(fun h => by cases h), trivial⟩⟩

theorem events_of_oneFile : (oneFile false).events = (oneFile true).events :=
  have hone : ∀ cr, Convertible (oneFile cr) := by
    rintro (_ | _) <;> exact ⟨by decide, by decide, by decide, by decide⟩
  events_of_output (hone false) (hone true)
    (show srec2bin false (oneFile false).text = srec2bin false (oneFile true).text by decide +kernel)

/-- The byte is written without a record. -/
theorem zero_address_lost : ¬Converts false zeroFile ∧
    srec2bin false zeroFile.text = (true, [0x42, 0xfa, 0xed, 0xfe, 0xaa]) := by
  constructor
  · intro h
    exact (convertible_of_converts h).first (.byte 0 0xaa) rfl rfl
  · obtain ⟨hall, hbytes⟩ := srec2bin_lines false zeroFile
    have hfst : (srec2bin false zeroFile.text).1 = true := hall.mpr (by simp [zeroFile, SrecFile.all])
    rw [← Prod.eta (srec2bin false zeroFile.text), hfst, hbytes hfst]
    rfl

end Iot7688.Srec2bin
