import Iot7688.Lib.Memory
import Iot7688.Lib.Run

/-!
The buffer that the template engine writes its output to. It grows by 1024 bytes or by what
is to be appended, and sizes are ints, so the length of the longest append is negative when
one is added to it.
-/
namespace Iot7688.TemplateBuffer

open Lib

structure Buffer where
  data : ℕ
  dptr : ℕ
  size : BitVec 32
  fill : BitVec 32
  /-- The length of the block at data, and its bytes. -/
  len : ℕ
  mem : Mem

/-- A block that malloc or realloc returns, with what happens to be in it, or NULL. -/
abbrev Alloc := Option (ℕ × Mem)

def bufInit (size : BitVec 32) (alloc data : Alloc) : Option Buffer :=
  let size := if size.sle 0 then 1024 else size
  match alloc, data with
  | some _, some (data, fresh) =>
      some ⟨data, data, size, 0, size.toNat, Function.update fresh 0 0⟩
  | _, _ => none

/-- A realloc to no bytes frees the block when it returns NULL. -/
def bufGrow (buf : Buffer) (size : BitVec 32) (alloc : Alloc) : BitVec 32 × Buffer :=
  let off := BitVec.ofNat 32 (buf.dptr - buf.data)
  let size := if size.sle 0 then 1024 else size
  let n := (buf.size + size).toNat
  match alloc with
  | some (data, fresh) =>
      (buf.size + size,
        { data := data
          dptr := data + off.toNat
          size := buf.size + size
          fill := buf.fill
          len := n
          mem := fresh.copy 0 (min buf.len n) buf.mem })
  | none => (0, if n = 0 then { buf with len := 0 } else buf)

/-- Writes at dptr; none when they go outside the block. -/
def store (buf : Buffer) (s : List Byte) : Option Buffer :=
  if s.length = 0 ∨ (buf.data ≤ buf.dptr ∧ buf.dptr + s.length ≤ buf.data + buf.len) then
    some { buf with mem := buf.mem.copy (buf.dptr - buf.data) s.length fun i => s.getD i 0 }
  else none

def bufPutchar (buf : Buffer) (c : Byte) (alloc : Alloc) : Option (BitVec 32 × Buffer) :=
  let grown := if buf.size ≤ buf.fill + 1 then bufGrow buf 0 alloc else (1, buf)
  if grown.1 = 0 then some (0, grown.2)
  else do
    let buf ← store grown.2 [c]
    let buf ← store { buf with dptr := buf.dptr + 1 } [0]
    some (1, { buf with fill := buf.fill + 1 })

/-- The bytes and the terminator behind them. -/
def putBytes (buf : Buffer) (s : List Byte) : Option Buffer := do
  let buf ← store buf s
  store { buf with
    fill := buf.fill + BitVec.ofNat 32 s.length
    dptr := buf.dptr + s.length } [0]

def bufAppend (buf : Buffer) (s : List Byte) (alloc : Alloc) : Option (BitVec 32 × Buffer) :=
  let len := BitVec.ofNat 32 s.length
  let grown := if buf.size ≤ buf.fill + len + 1 then bufGrow buf (len + 1) alloc else (1, buf)
  if grown.1 = 0 then some (0, grown.2)
  else (putBytes grown.2 s).map fun buf => (len, buf)

/-- data[0..fill) -/
def contents (buf : Buffer) : List Byte := (List.range buf.fill.toNat).map buf.mem

structure Ok (buf : Buffer) : Prop where
  fill_lt : buf.fill.toNat < buf.size.toNat
  dptr : buf.dptr = buf.data + buf.fill.toNat
  len : buf.len = buf.size.toNat
  zero : buf.mem buf.fill.toNat = 0

inductive Call
  | putchar (c : Byte) (alloc : Alloc)
  | append (s : List Byte) (alloc : Alloc)
  | grow (size : BitVec 32) (alloc : Alloc)

def Call.bytes : Call → List Byte
  | .putchar c _ => [c]
  | .append s _ => s
  | .grow _ _ => []

def Call.run (buf : Buffer) : Call → Option (BitVec 32 × Buffer)
  | .putchar c alloc => bufPutchar buf c alloc
  | .append s alloc => bufAppend buf s alloc
  | .grow size alloc => some (bufGrow buf size alloc)

/-- The buffer, if no write went outside it yet, the bytes that were put in, and whether all
calls that put bytes in returned a number other than zero. -/
structure State where
  buf : Option Buffer
  put : List Byte
  all : Bool

def start (buf : Buffer) : State := ⟨some buf, [], true⟩

def next (s : State) (c : Call) : State :=
  match s.buf.bind fun buf => c.run buf with
  | none => ⟨none, s.put ++ c.bytes, false⟩
  | some (ret, buf) =>
      ⟨some buf, s.put ++ c.bytes, s.all && (ret != 0 || c.bytes.isEmpty)⟩

/-- No write went outside the buffer, and it holds what was put in. -/
def Sound (s : State) : Prop :=
  ∃ buf, s.buf = some buf ∧ Ok buf ∧ (s.all = true → contents buf = s.put)

/-- How much buf_grow adds. -/
def growth (size : BitVec 32) : ℕ := (if size.sle 0 then 1024 else size).toNat

/-- The buffer can grow by so much and then has more than `need` bytes, or there is no
memory for it. -/
def Enough (buf : Buffer) (size : BitVec 32) (need : ℕ) (alloc : Alloc) : Prop :=
  need < (buf.size.toNat + growth size) % 2 ^ 32 ∨
    (alloc = none ∧ (buf.size.toNat + growth size) % 2 ^ 32 ≠ 0)

def Call.Fits (buf : Buffer) : Call → Prop
  | .putchar _ alloc =>
      buf.size.toNat ≤ buf.fill.toNat + 1 → Enough buf 0 (buf.fill.toNat + 1) alloc
  | .append s alloc =>
      buf.size.toNat ≤ buf.fill.toNat + s.length + 1 →
        Enough buf (BitVec.ofNat 32 s.length + 1) (buf.fill.toNat + s.length) alloc
  | .grow size alloc => Enough buf size buf.fill.toNat alloc

def Good (s : State) (c : Call) : Prop := ∀ buf, s.buf = some buf → c.Fits buf

section

variable {buf : Buffer} {s : List Byte} {size : BitVec 32}

theorem map_getD_range (s : List Byte) : (List.range s.length).map (fun i => s.getD i 0) = s := by
  apply List.ext_getElem
  · rw [List.length_map, List.length_range]
  · intro i hi hi'
    rw [List.getElem_map, List.getElem_range, List.getD_eq_getElem?_getD,
      List.getElem?_eq_getElem hi', Option.getD_some]

theorem contents_copy (mem : Mem) (n : ℕ) (s : List Byte) :
    (List.range (n + s.length)).map (mem.copy n s.length fun i => s.getD i 0) =
      (List.range n).map mem ++ s := by
  rw [List.range_add, List.map_append, List.map_map]
  congr 1
  · apply List.map_congr_left
    intro i hi
    exact Mem.copy_outside _ _ (Or.inl (List.mem_range.mp hi))
  · rw [← map_getD_range s, List.length_map, List.length_range]
    apply List.map_congr_left
    intro i hi
    rw [map_getD_range]
    exact Mem.copy_inside _ _ (List.mem_range.mp hi)

/-- Bytes for which there is room behind the old ones are put there with a terminator. -/
theorem putBytes_room (hdptr : buf.dptr = buf.data + buf.fill.toNat)
    (hlen : buf.len = buf.size.toNat) (hroom : buf.fill.toNat + s.length < buf.size.toNat) :
    ∃ buf', putBytes buf s = some buf' ∧ Ok buf' ∧
      buf'.fill.toNat = buf.fill.toNat + s.length ∧ contents buf' = contents buf ++ s := by
  have hsize := buf.size.isLt
  have hoff : buf.dptr - buf.data = buf.fill.toNat := by omega
  have hoff' : buf.dptr + s.length - buf.data = buf.fill.toNat + s.length := by omega
  have hfill : (buf.fill + BitVec.ofNat 32 s.length).toNat = buf.fill.toNat + s.length := by
    rw [BitVec.toNat_add, BitVec.toNat_ofNat]
    omega
  have hfirst : s.length = 0 ∨
      (buf.data ≤ buf.dptr ∧ buf.dptr + s.length ≤ buf.data + buf.len) := by
    omega
  have hsecond : [(0 : Byte)].length = 0 ∨ (buf.data ≤ buf.dptr + s.length ∧
      buf.dptr + s.length + [(0 : Byte)].length ≤ buf.data + buf.len) := by
    rw [List.length_singleton]
    omega
  have heq : putBytes buf s = some
      { data := buf.data
        dptr := buf.dptr + s.length
        size := buf.size
        fill := buf.fill + BitVec.ofNat 32 s.length
        len := buf.len
        mem := (buf.mem.copy buf.fill.toNat s.length fun i => s.getD i 0).copy
          (buf.fill.toNat + s.length) 1 fun i => [0].getD i 0 } := by
    unfold putBytes
    rw [store, if_pos hfirst, hoff, ← hoff']
    show store _ _ = _
    rw [store, if_pos hsecond]
    rfl
  refine ⟨_, heq, ⟨?_, ?_, hlen, ?_⟩, hfill, ?_⟩
  · dsimp only
    rw [hfill]
    exact hroom
  · dsimp only
    rw [hfill]
    omega
  · dsimp only
    rw [hfill]
    exact Mem.copy_inside _ _ Nat.one_pos
  · unfold contents
    dsimp only
    rw [hfill, ← contents_copy]
    apply List.map_congr_left
    intro i hi
    exact Mem.copy_outside _ _ (Or.inl (List.mem_range.mp hi))

theorem putBytes_full (hdptr : buf.dptr = buf.data + buf.fill.toNat)
    (hlen : buf.len = buf.size.toNat) (hfull : ¬buf.fill.toNat + s.length < buf.size.toNat) :
    putBytes buf s = none := by
  unfold putBytes
  unfold store
  split
  · show (if _ then _ else none) = none
    rw [if_neg]
    show ¬(_ ∨ (buf.data ≤ buf.dptr + s.length ∧ buf.dptr + s.length + 1 ≤ buf.data + buf.len))
    rw [List.length_singleton]
    omega
  · rfl

/-- The two writers: they differ in when they grow the buffer and by how much. -/
def putGrown (buf : Buffer) (s : List Byte) (must : Prop) [Decidable must] (size ret : BitVec 32)
    (alloc : Alloc) : Option (BitVec 32 × Buffer) :=
  let grown := if must then bufGrow buf size alloc else (1, buf)
  if grown.1 = 0 then some (0, grown.2) else (putBytes grown.2 s).map fun buf => (ret, buf)

theorem bufAppend_eq (buf : Buffer) (s : List Byte) (alloc : Alloc) : bufAppend buf s alloc =
    putGrown buf s (buf.size ≤ buf.fill + BitVec.ofNat 32 s.length + 1)
      (BitVec.ofNat 32 s.length + 1) (BitVec.ofNat 32 s.length) alloc := rfl

theorem bufPutchar_eq (buf : Buffer) (c : Byte) (alloc : Alloc) : bufPutchar buf c alloc =
    putGrown buf [c] (buf.size ≤ buf.fill + 1) 0 1 alloc := by
  unfold bufPutchar putGrown
  dsimp only
  generalize (if buf.size ≤ buf.fill + 1 then bufGrow buf 0 alloc else (1, buf)) = grown
  split
  · rfl
  · unfold putBytes
    cases store grown.2 [c] with
    | none => rfl
    | some buf' =>
      show (store { buf' with dptr := buf'.dptr + 1 } [0]).bind _ =
        (store { buf' with fill := buf'.fill + 1, dptr := buf'.dptr + 1 } [0]).map _
      unfold store
      dsimp only
      split
      · rfl
      · rfl

theorem toNat_growth (size : BitVec 32) : (buf.size + if size.sle 0 then 1024 else size).toNat =
    (buf.size.toNat + growth size) % 2 ^ 32 := BitVec.toNat_add _ _

/-- What buf_grow does with a buffer: it fails and leaves the buffer alone, or the size is
the sum modulo 2^32 and what fits of the contents is there. -/
theorem bufGrow_none (hsize : (buf.size.toNat + growth size) % 2 ^ 32 ≠ 0) :
    bufGrow buf size none = (0, buf) := by
  unfold bufGrow
  dsimp only
  rw [toNat_growth, if_neg hsize]

theorem bufGrow_freed (hsize : (buf.size.toNat + growth size) % 2 ^ 32 = 0) :
    bufGrow buf size none = (0, { buf with len := 0 }) := by
  unfold bufGrow
  dsimp only
  rw [toNat_growth, if_pos hsize]

theorem bufGrow_some (size : BitVec 32) (h : Ok buf) (block : ℕ × Mem) :
    (bufGrow buf size (some block)).1.toNat = (buf.size.toNat + growth size) % 2 ^ 32 ∧
    (bufGrow buf size (some block)).2.size.toNat = (buf.size.toNat + growth size) % 2 ^ 32 ∧
    (bufGrow buf size (some block)).2.fill = buf.fill ∧
    (bufGrow buf size (some block)).2.dptr =
      (bufGrow buf size (some block)).2.data + buf.fill.toNat ∧
    (bufGrow buf size (some block)).2.len = (bufGrow buf size (some block)).2.size.toNat ∧
    ∀ i < min buf.size.toNat ((buf.size.toNat + growth size) % 2 ^ 32),
      (bufGrow buf size (some block)).2.mem i = buf.mem i := by
  obtain ⟨data, fresh⟩ := block
  have hoff : BitVec.ofNat 32 (buf.dptr - buf.data) = buf.fill := by
    rw [h.dptr, Nat.add_sub_cancel_left, BitVec.ofNat_toNat, BitVec.setWidth_eq]
  unfold bufGrow
  dsimp only
  rw [hoff, toNat_growth, h.len]
  exact ⟨rfl, rfl, rfl, rfl, rfl, fun i hi => Mem.copy_start _ _ hi⟩

/-- A buffer that is large enough after it grew is in order, with the same contents. -/
theorem grown_ok (h : Ok buf) (block : ℕ × Mem)
    (hfits : buf.fill.toNat < (buf.size.toNat + growth size) % 2 ^ 32) :
    Ok (bufGrow buf size (some block)).2 ∧
      contents (bufGrow buf size (some block)).2 = contents buf := by
  obtain ⟨-, hsize, hfill, hdptr, hlen, hmem⟩ := bufGrow_some size h block
  have hkept (i : ℕ) (hi : i ≤ buf.fill.toNat) :
      (bufGrow buf size (some block)).2.mem i = buf.mem i :=
    hmem i (lt_min (hi.trans_lt h.fill_lt) (hi.trans_lt hfits))
  refine ⟨⟨?_, ?_, hlen, ?_⟩, ?_⟩
  · rw [hfill, hsize]
    exact hfits
  · rw [hdptr, hfill]
  · rw [hfill, hkept _ (Nat.le_refl _)]
    exact h.zero
  · unfold contents
    rw [hfill]
    apply List.map_congr_left
    intro i hi
    exact hkept i (List.mem_range.mp hi).le

theorem bufGrow_ok_iff (h : Ok buf) (alloc : Alloc) :
    Ok (bufGrow buf size alloc).2 ↔ Enough buf size buf.fill.toNat alloc := by
  unfold Enough
  cases alloc with
  | none =>
    by_cases hzero : (buf.size.toNat + growth size) % 2 ^ 32 = 0
    · rw [bufGrow_freed hzero, hzero]
      refine iff_of_false (fun hok => ?_) (by simp)
      have hlen := hok.len
      have hlt := hok.fill_lt
      dsimp only at hlen hlt
      omega
    · rw [bufGrow_none hzero]
      exact iff_of_true h (Or.inr ⟨rfl, hzero⟩)
  | some block =>
    constructor
    · intro hok
      obtain ⟨-, hsize, hfill, -⟩ := bufGrow_some size h block
      have hlt := hok.fill_lt
      rw [hsize, hfill] at hlt
      exact Or.inl hlt
    · rintro (hfits | ⟨hnone, -⟩)
      · exact (grown_ok h block hfits).1
      · exact absurd hnone (by simp)

theorem bufGrow_contents (h : Ok buf) (alloc : Alloc)
    (henough : Enough buf size buf.fill.toNat alloc) :
    contents (bufGrow buf size alloc).2 = contents buf ∧
      (bufGrow buf size alloc).2.fill = buf.fill := by
  cases alloc with
  | none =>
    rcases henough with hfits | ⟨-, hzero⟩
    · rw [bufGrow_none (Nat.ne_of_gt (Nat.zero_lt_of_lt hfits))]
      exact ⟨rfl, rfl⟩
    · rw [bufGrow_none hzero]
      exact ⟨rfl, rfl⟩
  | some block =>
    rcases henough with hfits | ⟨hnone, -⟩
    · exact ⟨(grown_ok h block hfits).2, (bufGrow_some size h block).2.2.1⟩
    · exact absurd hnone (by simp)

variable {must : Prop} [Decidable must] {ret : BitVec 32} {alloc : Alloc}

theorem putGrown_good (h : Ok buf) (hmust : ¬must → buf.fill.toNat + s.length < buf.size.toNat)
    (hgood : must → Enough buf size (buf.fill.toNat + s.length) alloc) :
    ∃ ret' buf', putGrown buf s must size ret alloc = some (ret', buf') ∧ Ok buf' ∧
      ((ret' = ret ∧ contents buf' = contents buf ++ s ∧
        buf'.fill.toNat = buf.fill.toNat + s.length) ∨ (ret' = 0 ∧ buf' = buf)) := by
  unfold putGrown
  dsimp only
  by_cases hgrow : must
  · rw [if_pos hgrow]
    have henough := hgood hgrow
    cases alloc with
    | none =>
      have hsize : (buf.size.toNat + growth size) % 2 ^ 32 ≠ 0 := by
        rcases henough with hfits | ⟨-, hne⟩
        · exact Nat.ne_of_gt (Nat.zero_lt_of_lt hfits)
        · exact hne
      rw [bufGrow_none hsize]
      exact ⟨0, buf, rfl, h, Or.inr ⟨rfl, rfl⟩⟩
    | some block =>
      have hfits := henough.resolve_right (by simp)
      obtain ⟨hret, hsize, hfill, hdptr, hlen, -⟩ := bufGrow_some size h block
      have hkept := (grown_ok h block ((Nat.le_add_right _ _).trans_lt hfits)).2
      have hne : (bufGrow buf size (some block)).1 ≠ 0 := by
        intro hzero
        rw [hzero] at hret
        exact Nat.ne_of_lt (Nat.zero_lt_of_lt hfits) hret
      rw [← hfill] at hdptr
      obtain ⟨buf', hput, hok, hfill', hcontents⟩ := putBytes_room hdptr hlen
        (by rw [hfill, hsize]; exact hfits)
      rw [if_neg hne, hput]
      rw [hfill] at hfill'
      rw [hkept] at hcontents
      exact ⟨ret, buf', rfl, hok, Or.inl ⟨rfl, hcontents, hfill'⟩⟩
  · rw [if_neg hgrow, if_neg (show (1 : BitVec 32) ≠ 0 by decide)]
    obtain ⟨buf', hput, hok, hfill', hcontents⟩ := putBytes_room h.dptr h.len (hmust hgrow)
    rw [hput]
    exact ⟨ret, buf', rfl, hok, Or.inl ⟨rfl, hcontents, hfill'⟩⟩

theorem putGrown_bad (h : Ok buf) (hgrow : must)
    (hbad : ¬Enough buf size (buf.fill.toNat + s.length) alloc) {ret' : BitVec 32} {buf' : Buffer}
    (hput : putGrown buf s must size ret alloc = some (ret', buf')) : ¬Ok buf' := by
  intro hok
  have hlt := hok.fill_lt
  have hlen' := hok.len
  unfold Enough at hbad
  obtain ⟨hshort, hnone⟩ := not_or.mp hbad
  unfold putGrown at hput
  dsimp only at hput
  rw [if_pos hgrow] at hput
  cases alloc with
  | none =>
    have hzero : (buf.size.toNat + growth size) % 2 ^ 32 = 0 := by
      by_contra hne
      exact hnone ⟨rfl, hne⟩
    rw [bufGrow_freed hzero] at hput
    obtain ⟨-, rfl⟩ := Prod.mk.inj (Option.some.inj hput)
    dsimp only at hlt hlen'
    omega
  | some block =>
    obtain ⟨hret, hsize, hfill, hdptr, hlen, -⟩ := bufGrow_some size h block
    by_cases hzero : (bufGrow buf size (some block)).1 = 0
    · rw [if_pos hzero] at hput
      obtain ⟨-, rfl⟩ := Prod.mk.inj (Option.some.inj hput)
      rw [hzero] at hret
      rw [hsize, ← hret] at hlt
      exact Nat.not_lt_zero _ hlt
    · rw [← hfill] at hdptr
      rw [if_neg hzero, putBytes_full hdptr hlen (by rw [hfill, hsize]; exact hshort)] at hput
      exact absurd hput (by simp)

end

/-- What holds before every call of a run of good calls. -/
def Inv (s : State) : Prop :=
  ∃ buf, s.buf = some buf ∧ Ok buf ∧ (s.all = true → contents buf = s.put) ∧
    buf.fill.toNat ≤ s.put.length

theorem Inv.sound {s : State} (h : Inv s) : Sound s := by
  obtain ⟨buf, hbuf, hok, hall, -⟩ := h
  exact ⟨buf, hbuf, hok, hall⟩

section

variable {s : State} {buf : Buffer}

theorem not_sound_next {c : Call} (hbuf : s.buf = some buf)
    (h : ∀ ret buf', c.run buf = some (ret, buf') → ¬Ok buf') : ¬Sound (next s c) := by
  rintro ⟨buf', hbuf', hok, -⟩
  unfold next at hbuf'
  rw [hbuf, Option.bind_some] at hbuf'
  cases hrun : c.run buf with
  | none =>
    rw [hrun] at hbuf'
    exact absurd hbuf' (by simp)
  | some r =>
    obtain ⟨ret, buf''⟩ := r
    rw [hrun] at hbuf'
    obtain rfl : buf'' = buf' := Option.some.inj hbuf'
    exact h ret buf'' hrun hok

theorem inv_next_of_run {c : Call} {ret : BitVec 32} {buf' : Buffer} (hbuf : s.buf = some buf)
    (hrun : c.run buf = some (ret, buf')) (hok : Ok buf')
    (hall : s.all = true → contents buf = s.put) (hfill : buf.fill.toNat ≤ s.put.length)
    (hput : (contents buf' = contents buf ++ c.bytes ∧
        buf'.fill.toNat = buf.fill.toNat + c.bytes.length) ∨ (ret = 0 ∧ buf' = buf)) :
    Inv (next s c) := by
  have hnext : next s c =
      ⟨some buf', s.put ++ c.bytes, s.all && (ret != 0 || c.bytes.isEmpty)⟩ := by
    unfold next
    rw [hbuf, Option.bind_some, hrun]
  rw [hnext]
  refine ⟨buf', rfl, hok, fun hset => ?_, ?_⟩
  · rw [Bool.and_eq_true, Bool.or_eq_true, bne_iff_ne, List.isEmpty_iff] at hset
    rcases hput with ⟨hcontents, -⟩ | ⟨hret, rfl⟩
    · rw [hcontents, hall hset.1]
    · rw [hset.2.resolve_left fun hne => hne hret, List.append_nil]
      exact hall hset.1
  · rw [List.length_append]
    rcases hput with ⟨-, hfill'⟩ | ⟨-, rfl⟩
    · omega
    · omega

/-- The calls that leave the buffer in order are the good ones. -/
theorem step (h : Inv s) (c : Call) (htotal : s.put.length + c.bytes.length < 2 ^ 31) :
    (Sound (next s c) ↔ Good s c) ∧ (Good s c → Inv (next s c)) := by
  obtain ⟨buf, hbuf, hok, hall, hfill⟩ := h
  have hgood : Good s c ↔ c.Fits buf := by
    unfold Good
    rw [hbuf]
    exact ⟨fun h => h buf rfl, fun h buf' heq => Option.some.inj heq ▸ h⟩
  have both (hyes : c.Fits buf → Inv (next s c)) (hno : ¬c.Fits buf → ¬Sound (next s c)) :
      (Sound (next s c) ↔ Good s c) ∧ (Good s c → Inv (next s c)) := by
    rw [hgood]
    exact ⟨⟨fun hsound => by_contra fun h => hno h hsound, fun h => (hyes h).sound⟩, hyes⟩
  have writer (must : Prop) [Decidable must] (size ret : BitVec 32) (alloc : Alloc)
      (hrun : c.run buf = putGrown buf c.bytes must size ret alloc)
      (hroom : ¬must → buf.fill.toNat + c.bytes.length < buf.size.toNat)
      (hfits : c.Fits buf ↔ (must → Enough buf size (buf.fill.toNat + c.bytes.length) alloc)) :
      (Sound (next s c) ↔ Good s c) ∧ (Good s c → Inv (next s c)) := by
    refine both (fun hyes => ?_) fun hno => ?_
    · obtain ⟨ret', buf', hput, hok', hresult⟩ := putGrown_good hok hroom (hfits.mp hyes)
      refine inv_next_of_run hbuf (hrun.trans hput) hok' hall hfill ?_
      exact hresult.imp_left And.right
    · obtain ⟨hgrow, hbad⟩ := Classical.not_imp.mp (mt hfits.mpr hno)
      exact not_sound_next hbuf fun ret' buf' hput =>
        putGrown_bad hok hgrow hbad (hrun.symm.trans hput)
  cases c with
  | putchar c alloc =>
    have hle : buf.size ≤ buf.fill + 1 ↔ buf.size.toNat ≤ buf.fill.toNat + 1 := by
      have hsum : (buf.fill + 1).toNat = buf.fill.toNat + 1 := by
        rw [BitVec.toNat_add]
        show (buf.fill.toNat + 1) % 2 ^ 32 = _
        omega
      rw [BitVec.le_def, hsum]
    refine writer _ 0 1 alloc (bufPutchar_eq buf c alloc) (fun hroom => ?_) ?_
    · rw [hle] at hroom
      exact Nat.lt_of_not_le hroom
    · rw [hle]
      exact Iff.rfl
  | append bytes alloc =>
    have htotal' : s.put.length + bytes.length < 2 ^ 31 := htotal
    have hle : buf.size ≤ buf.fill + BitVec.ofNat 32 bytes.length + 1 ↔
        buf.size.toNat ≤ buf.fill.toNat + bytes.length + 1 := by
      have hsum : (buf.fill + BitVec.ofNat 32 bytes.length + 1).toNat =
          buf.fill.toNat + bytes.length + 1 := by
        rw [BitVec.toNat_add, BitVec.toNat_add, BitVec.toNat_ofNat]
        show ((buf.fill.toNat + bytes.length % 2 ^ 32) % 2 ^ 32 + 1) % 2 ^ 32 = _
        omega
      rw [BitVec.le_def, hsum]
    refine writer _ _ _ alloc (bufAppend_eq buf bytes alloc) (fun hroom => ?_) ?_
    · rw [hle] at hroom
      show buf.fill.toNat + bytes.length < _
      omega
    · rw [hle]
      exact Iff.rfl
  | grow size alloc =>
    have hrun : (Call.grow size alloc).run buf =
        some ((bufGrow buf size alloc).1, (bufGrow buf size alloc).2) := rfl
    refine both (fun hyes => ?_) fun hno => ?_
    · obtain ⟨hcontents, hsame⟩ := bufGrow_contents hok alloc hyes
      have hok' := (bufGrow_ok_iff hok alloc).mpr hyes
      refine inv_next_of_run hbuf hrun hok' hall hfill (Or.inl ⟨?_, ?_⟩)
      · rw [hcontents]
        exact (List.append_nil _).symm
      · rw [hsame]
        rfl
    · refine not_sound_next hbuf fun ret' buf' hgrown hok' => hno ?_
      obtain ⟨-, rfl⟩ := Prod.mk.inj (Option.some.inj (hrun.symm.trans hgrown))
      exact (bufGrow_ok_iff hok alloc).mp hok'

/-- The bytes that all calls put in. -/
def total (calls : List Call) : ℕ := (calls.map fun c => c.bytes.length).sum

theorem run_iff (calls : List Call) (h : Inv s) (htotal : s.put.length + total calls < 2 ^ 31) :
    Every next (fun s c => Sound (next s c)) s calls ↔ Every next Good s calls := by
  induction calls generalizing s with
  | nil => exact Iff.rfl
  | cons c calls ih =>
    unfold total at htotal
    rw [List.map_cons, List.sum_cons] at htotal
    obtain ⟨hiff, hkeep⟩ := step h c (by omega)
    unfold Every
    rw [hiff]
    refine and_congr_right fun hgood => ih (hkeep hgood) ?_
    have hput : (next s c).put = s.put ++ c.bytes := by
      unfold next
      split
      · rfl
      · rfl
    rw [hput, List.length_append]
    unfold total
    omega

end

section

variable {size : BitVec 32} {alloc data : Alloc} {buf : Buffer}

theorem inv_start (h : bufInit size alloc data = some buf) : Inv (start buf) := by
  have hpos : 0 < (if size.sle 0 then 1024 else size).toNat := by
    split
    · decide
    · next hsize =>
      rw [BitVec.sle_iff_toInt_le, BitVec.toInt_eq_toNat_cond] at hsize
      by_contra hzero
      rw [Nat.eq_zero_of_not_pos hzero] at hsize
      exact hsize (by decide)
  unfold bufInit at h
  dsimp only at h
  split at h
  · next data fresh =>
    obtain rfl := Option.some.inj h
    refine ⟨_, rfl, ⟨hpos, rfl, rfl, ?_⟩, fun _ => rfl, Nat.le_refl _⟩
    exact Function.update_self (0 : ℕ) (0 : Byte) fresh
  · exact absurd h (by simp)

/-- In the runs in which the buffer never grows by less than it needs, and in no others, it
is in order after every call. -/
theorem buffer_iff (hinit : bufInit size alloc data = some buf) (calls : List Call)
    (htotal : total calls < 2 ^ 31) :
    Sound (start buf) ∧ (Every next (fun s c => Sound (next s c)) (start buf) calls ↔
      Every next Good (start buf) calls) :=
  ⟨(inv_start hinit).sound, run_iff calls (inv_start hinit) (by simpa [start] using htotal)⟩

end

/-- What bufInit 0 returns with a block at 4096. -/
def fresh : Buffer := ⟨4096, 4096, 1024, 0, 1024, Function.update (fun _ => 0) 0 0⟩

/-- A character fits. -/
theorem putchar_sound : Every next (fun s c => Sound (next s c)) (start fresh)
    [.putchar 65 none] := by
  have hinit : bufInit 0 (some (0, fun _ => 0)) (some (4096, fun _ => 0)) = some fresh := rfl
  refine (buffer_iff hinit _ (by decide)).2.mpr ⟨?_, trivial⟩
  rintro _ ⟨⟩ hgrow
  exact absurd hgrow (by decide)

theorem longest_not_fits {bytes : List Byte} {block : ℕ × Mem}
    (hlen : bytes.length = 2 ^ 31 - 1) : ¬(Call.append bytes (some block)).Fits fresh := by
  intro hfits
  unfold Call.Fits at hfits
  dsimp only at hfits
  rw [hlen] at hfits
  rcases hfits (by decide) with hshort | ⟨hnone, -⟩
  · revert hshort
    decide
  · exact absurd hnone (by simp)

/-- The longest append is written to a buffer of 2048 bytes. -/
theorem longest_append : bufInit 0 (some (0, fun _ => 0)) (some (4096, fun _ => 0)) = some fresh ∧
    total [.append (List.replicate (2 ^ 31 - 1) 0) (some (8192, fun _ => 0))] < 2 ^ 31 ∧
    ¬Every next (fun s c => Sound (next s c)) (start fresh)
      [.append (List.replicate (2 ^ 31 - 1) 0) (some (8192, fun _ => 0))] := by
  have hinit : bufInit 0 (some (0, fun _ => 0)) (some (4096, fun _ => 0)) = some fresh := rfl
  have htotal : total [.append (List.replicate (2 ^ 31 - 1) 0) (some (8192, fun _ => 0))] =
      2 ^ 31 - 1 := by
    unfold total Call.bytes
    rw [List.map_singleton, List.sum_singleton, List.length_replicate]
  refine ⟨hinit, by rw [htotal]; decide, fun hsound => ?_⟩
  have hgood := (run_iff _ (inv_start hinit) (by rw [htotal]; decide)).mp hsound
  exact longest_not_fits List.length_replicate (hgood.1 fresh rfl)

end Iot7688.TemplateBuffer
