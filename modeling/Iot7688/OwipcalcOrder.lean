import Iot7688.Owipcalc

/-!
The IPv4 operations on hosts of either byte order. All but three compute on words in one
byte order; next and prev add in memory, and 6to4 takes bytes from a value.
-/
namespace Iot7688.Owipcalc

open Lib

/-- The operation that runop finds, the entry on top, and the argument. -/
def operands (inet : Inet) (h : Host) (c : Config) : Option (Op × Cidr × Option Cidr) :=
  match c.args with
  | [] => none
  | arg1 :: rest =>
      match findOp arg1, c.state.stack with
      | some op, a :: _ =>
          if op.f4a2.isSome ∨ op.f6a2.isSome then
            match rest with
            | [] => none
            | arg2 :: _ =>
                match cidrParse inet h arg2 a.family with
                | .parsed b => some (op, a, some b)
                | _ => none
          else some (op, a, none)
      | _, _ => none

/-- What the operation does for the family of the entry, if it is supported. -/
def Op.run (op : Op) (a : Cidr) (b : Option Cidr) (h : Host) (s : State) : Option Result :=
  match b with
  | some b => (op.a2 a.family).map fun f => f h a b s
  | none => (op.a1 a.family).map fun f => f h a s

section

variable {inet : Inet} {h : Host} {c : Config} {op : Op} {a : Cidr} {b : Option Cidr}

theorem runop_operands (hop : operands inet h c = some (op, a, b)) :
    runop inet h c = match op.run a b h c.state with
      | none => .stops ⟨c.args.drop (if b.isSome then 2 else 1), 5, c.state⟩
      | some r => Next.ofResult (c.args.drop (if b.isSome then 2 else 1)) r := by
  unfold operands at hop
  unfold runop
  cases hargs : c.args with
  | nil => simp [hargs] at hop
  | cons arg1 rest =>
    cases hfind : findOp arg1 with
    | none => simp [hargs, hfind] at hop
    | some op' =>
      cases hstack : c.state.stack with
      | nil => simp [hargs, hfind, hstack] at hop
      | cons a' stack =>
        simp only [hargs, hfind, hstack] at hop ⊢
        split at hop
        · rename_i htwo
          rw [if_pos htwo]
          cases rest with
          | nil => simp at hop
          | cons arg2 rest =>
            dsimp only at hop ⊢
            cases hparse : cidrParse inet h arg2 a'.family with
            | invalid => simp [hparse] at hop
            | exits => simp [hparse] at hop
            | parsed b' =>
              simp only [hparse, Option.some.injEq, Prod.mk.injEq] at hop ⊢
              obtain ⟨rfl, rfl, rfl⟩ := hop
              unfold Op.run
              cases op'.a2 a'.family with
              | none => rfl
              | some f => rfl
        · rename_i htwo
          rw [if_neg htwo]
          simp only [Option.some.injEq, Prod.mk.injEq] at hop
          obtain ⟨rfl, rfl, rfl⟩ := hop
          unfold Op.run
          cases op'.a1 a'.family with
          | none => rfl
          | some f => rfl

end

/-- The number of bits that are set. -/
def bitCount {w : ℕ} (x : BitVec w) : ℕ := ((List.range w).map fun i => (x.getLsbD i).toNat).sum

theorem bitCount_append {w v : ℕ} (x : BitVec w) (y : BitVec v) :
    bitCount (x ++ y) = bitCount y + bitCount x := by
  unfold bitCount
  have hrange : List.range (w + v) = List.range v ++ (List.range w).map (v + ·) := by
    rw [Nat.add_comm, List.range_add]
  simp only [hrange, List.map_append, List.sum_append, List.map_map]
  congr 2
  · refine List.map_congr_left fun i hi => ?_
    rw [BitVec.getLsbD_append, if_pos (List.mem_range.mp hi)]
  · refine List.map_congr_left fun i _ => ?_
    rw [Function.comp_apply, BitVec.getLsbD_append, if_neg (by omega), Nat.add_sub_cancel_left]

theorem bitCount_word (a b c d : Byte) : bitCount (word a b c d) = bitCount d.toBitVec +
    (bitCount c.toBitVec + (bitCount b.toBitVec + bitCount a.toBitVec)) := by
  unfold word
  rw [← bitCount_append, ← bitCount_append, ← bitCount_append]

/-- The shifts of the loop count the bits that are set. -/
theorem countBits_eq (fuel : ℕ) (x : BitVec 32) :
    countBits fuel x = ((List.range fuel).map fun i => (x.getLsbD i).toNat).sum := by
  induction fuel generalizing x with
  | zero => rfl
  | succ fuel ih =>
    have hbit : (x &&& 1).toNat = (x.getLsbD 0).toNat := by
      rw [BitVec.toNat_and, BitVec.getLsbD, Nat.testBit_zero]
      have hand : x.toNat &&& (1 : BitVec 32).toNat = x.toNat % 2 := Nat.and_one_is_mod _
      rw [hand]
      rcases Nat.mod_two_eq_zero_or_one x.toNat with h | h <;> simp [h]
    have hshift : ∀ i, (x >>> 1).getLsbD i = x.getLsbD (i + 1) := fun i => by
      rw [BitVec.getLsbD_ushiftRight, Nat.add_comm]
    have hrec : countBits (fuel + 1) x = (x.getLsbD 0).toNat + countBits fuel (x >>> 1) := by
      rw [countBits, hbit]
      split
      · rename_i hzero
        subst hzero
        cases fuel <;> simp [countBits]
      · rfl
    rw [List.range_succ_eq_map, List.map_cons, List.sum_cons, List.map_map, hrec, ih]
    simp only [hshift]
    rfl

/-- The loop counts the same bits in either order. -/
theorem countBits_loadWord (h : Host) (m : Mem) :
    countBits 32 (loadWord h m) = countBits 32 (loadWord .big m) := by
  have hcount (x : BitVec 32) : countBits 32 x = bitCount x := countBits_eq 32 x
  cases h with
  | big => rfl
  | little =>
    rw [hcount, hcount]
    unfold loadWord
    dsimp only
    rw [bitCount_word, bitCount_word]
    omega

section

variable (inet : Inet) (h : Host) (s : List Byte)

theorem cidrParse4_host : cidrParse4 inet h s = cidrParse4 inet .big s := by
  unfold cidrParse4
  simp only [countBits_loadWord h]

theorem cidrParse_host (hint : Family) : cidrParse inet h s hint = cidrParse inet .big s hint := by
  unfold cidrParse
  simp only [storeWord_htonl, cidrParse4_host inet h]

theorem start_host : start inet h s = start inet .big s := by
  unfold start
  rw [cidrParse4_host]

theorem operands_host (c : Config) : operands inet h c = operands inet .big c := by
  unfold operands
  simp only [cidrParse_host inet h]

end

section

variable (h : Host) (a b : Cidr) (x : BitVec 32) (s : State)

theorem setSAddr_htonl : a.setSAddr h (htonl h x) = a.setSAddr .big x := by
  unfold Cidr.setSAddr
  rw [storeWord_htonl]

theorem sAddr_eq : a.sAddr h = htonl h (a.sAddr .big) := loadWord_eq h a.addr

theorem ntohl_sAddr : ntohl h (a.sAddr h) = a.sAddr .big := ntohl_loadWord h a.addr

theorem cidrAdd4_host : cidrAdd4 h a b s = cidrAdd4 .big a b s := by
  unfold cidrAdd4
  simp only [ntohl_sAddr, setSAddr_htonl]

theorem cidrSub4_host : cidrSub4 h a b s = cidrSub4 .big a b s := by
  unfold cidrSub4
  simp only [ntohl_sAddr, setSAddr_htonl]

theorem cidrNetwork4_host : cidrNetwork4 h a s = cidrNetwork4 .big a s := by
  unfold cidrNetwork4
  simp only [sAddr_eq h, htonl_and, setSAddr_htonl]
  rfl

theorem cidrBroadcast4_host : cidrBroadcast4 h a s = cidrBroadcast4 .big a s := by
  unfold cidrBroadcast4
  simp only [sAddr_eq h, htonl_or, setSAddr_htonl]
  rfl

theorem cidrNetmask4_host : cidrNetmask4 h a s = cidrNetmask4 .big a s := by
  unfold cidrNetmask4
  simp only [setSAddr_htonl]

theorem cidrContains4_host : cidrContains4 h a b s = cidrContains4 .big a b s := by
  unfold cidrContains4
  simp only [sAddr_eq h, htonl_and, htonl_inj]
  rfl

theorem cidrPrivate4_host : cidrPrivate4 h a s = cidrPrivate4 .big a s := by
  unfold cidrPrivate4
  simp only [ntohl_sAddr]

theorem cidrLinklocal4_host : cidrLinklocal4 h a s = cidrLinklocal4 .big a s := by
  unfold cidrLinklocal4
  simp only [ntohl_sAddr]

end

theorem shl1_size (p : BitVec 32) : shl1 (32 - p) =
    if 1 ≤ p.toNat ∧ p.toNat ≤ 32 then some (1#32 <<< (32 - p.toNat)) else none := by
  have hp := p.isLt
  have hsub : (32 - p).toNat = (2 ^ 32 - p.toNat + 32) % 2 ^ 32 := BitVec.toNat_sub _ _
  unfold shl1
  by_cases hsize : 1 ≤ p.toNat ∧ p.toNat ≤ 32
  · have hn : (32 - p).toNat = 32 - p.toNat := by omega
    rw [if_pos hsize, if_pos (by omega), hn]
  · rw [if_neg hsize, if_neg (by omega)]

/-- An address as a number. -/
def Cidr.value (a : Cidr) : ℕ := (loadWord .big a.addr).toNat

theorem byte_loadWord (m : Mem) {i : ℕ} (hi : i ≤ 3) : byte (loadWord .big m) i = m (3 - i) := by
  obtain ⟨ha, hb, hc, hd⟩ := byte_word (m 0) (m 1) (m 2) (m 3)
  obtain rfl | rfl | rfl | rfl : i = 0 ∨ i = 1 ∨ i = 2 ∨ i = 3 := by omega
  · exact hd
  · exact hc
  · exact hb
  · exact ha

/-- The byte in which a prefix of this size ends has room for one more. -/
def NextFits (a : Cidr) (p : ℕ) : Prop :=
  (1 ≤ p ∧ p ≤ 32) ∧ (a.addr ((p - 1) / 8)).toNat + 2 ^ ((32 - p) % 8) < 2 ^ 8

def PrevFits (a : Cidr) (p : ℕ) : Prop :=
  (1 ≤ p ∧ p ≤ 32) ∧ 2 ^ ((32 - p) % 8) ≤ (a.addr ((p - 1) / 8)).toNat

/-- The entry that next pushes. -/
def nextEntry (h : Host) (a b : Cidr) : Cidr :=
  { a.setSAddr h (a.sAddr h + htonl h (1#32 <<< (32 - b.size.toNat))) with size := b.size }

def prevEntry (h : Host) (a b : Cidr) : Cidr :=
  { a.setSAddr h (a.sAddr h - htonl h (1#32 <<< (32 - b.size.toNat))) with size := b.size }

section

variable (h : Host) (a b : Cidr) (s : State)

theorem cidrNext4_eq : cidrNext4 h a b s = if 1 ≤ b.size.toNat ∧ b.size.toNat ≤ 32 then
    some (s.cidrPush (nextEntry h a b), true) else none := by
  unfold cidrNext4
  rw [shl1_size]
  split
  · rfl
  · rfl

theorem cidrPrev4_eq : cidrPrev4 h a b s = if 1 ≤ b.size.toNat ∧ b.size.toNat ≤ 32 then
    some (s.cidrPush (prevEntry h a b), true) else none := by
  unfold cidrPrev4
  rw [shl1_size]
  split
  · rfl
  · rfl

theorem setSAddr_little (x : BitVec 32) :
    (a.setSAddr .little x).addr = storeWord .big (swap x) a.addr := storeWord_eq .little x a.addr

theorem sAddr_little : a.sAddr .little = swap (a.sAddr .big) := loadWord_eq .little a.addr

variable {a b}

theorem nextEntry_value (hp : 1 ≤ b.size.toNat ∧ b.size.toNat ≤ 32) :
    (nextEntry .little a b).value = a.value + 2 ^ (32 - b.size.toNat) ↔
      NextFits a b.size.toNat := by
  have hiff := swap_add_bit_iff (a.sAddr .big) (show 32 - b.size.toNat < 32 by omega)
  have hbyte : byte (a.sAddr .big) ((32 - b.size.toNat) / 8) = a.addr ((b.size.toNat - 1) / 8) := by
    unfold Cidr.sAddr
    rw [byte_loadWord a.addr (by omega)]
    congr 1
    omega
  rw [hbyte] at hiff
  unfold nextEntry Cidr.value NextFits
  dsimp only
  rw [setSAddr_little, loadWord_storeWord, sAddr_little]
  exact hiff.trans ⟨fun hlt => ⟨hp, hlt⟩, fun hfits => hfits.2⟩

theorem prevEntry_value (hp : 1 ≤ b.size.toNat ∧ b.size.toNat ≤ 32) :
    (prevEntry .little a b).value + 2 ^ (32 - b.size.toNat) = a.value ↔
      PrevFits a b.size.toNat := by
  have hiff := swap_sub_bit_iff (a.sAddr .big) (show 32 - b.size.toNat < 32 by omega)
  have hbyte : byte (a.sAddr .big) ((32 - b.size.toNat) / 8) = a.addr ((b.size.toNat - 1) / 8) := by
    unfold Cidr.sAddr
    rw [byte_loadWord a.addr (by omega)]
    congr 1
    omega
  rw [hbyte] at hiff
  unfold prevEntry Cidr.value PrevFits
  dsimp only
  rw [setSAddr_little, loadWord_storeWord, sAddr_little]
  exact hiff.trans ⟨fun hle => ⟨hp, hle⟩, fun hfits => hfits.2⟩

/-- Two addresses that are stored over the same bytes are equal when their values are. -/
theorem setSAddr_little_eq {x y : BitVec 32} (h : (swap x).toNat = y.toNat) :
    a.setSAddr .little x = a.setSAddr .big y := by
  have haddr : (a.setSAddr .little x).addr = (a.setSAddr .big y).addr := by
    rw [setSAddr_little, BitVec.eq_of_toNat_eq h]
    rfl
  exact congrArg (fun addr => ({ a with addr := addr } : Cidr)) haddr

theorem nextEntry_host (h : NextFits a b.size.toNat) :
    nextEntry .little a b = nextEntry .big a b := by
  have hvalue := (nextEntry_value h.1).mpr h
  unfold nextEntry Cidr.value at hvalue
  dsimp only at hvalue
  rw [setSAddr_little, loadWord_storeWord] at hvalue
  have hlt := (swap (a.sAddr .little + htonl .little (1#32 <<< (32 - b.size.toNat)))).isLt
  have hk : 32 - b.size.toNat < 32 := Nat.sub_lt (by decide) h.1.1
  obtain ⟨-, -, -, -, hbit, -⟩ := toNat_bit hk
  have hsum : (swap (a.sAddr .little + htonl .little (1#32 <<< (32 - b.size.toNat)))).toNat =
      (a.sAddr .big + htonl .big (1#32 <<< (32 - b.size.toNat))).toNat := by
    show _ = (a.sAddr .big + 1#32 <<< (32 - b.size.toNat)).toNat
    rw [BitVec.toNat_add, hbit, hvalue]
    exact (Nat.mod_eq_of_lt (hvalue ▸ hlt)).symm
  unfold nextEntry
  rw [setSAddr_little_eq hsum]

theorem prevEntry_host (h : PrevFits a b.size.toNat) :
    prevEntry .little a b = prevEntry .big a b := by
  have hvalue := (prevEntry_value h.1).mpr h
  unfold prevEntry Cidr.value at hvalue
  dsimp only at hvalue
  rw [setSAddr_little, loadWord_storeWord] at hvalue
  have hlt := (loadWord .big a.addr).isLt
  have hk : 32 - b.size.toNat < 32 := Nat.sub_lt (by decide) h.1.1
  obtain ⟨-, -, -, -, hbit, -⟩ := toNat_bit hk
  have hdiff : (swap (a.sAddr .little - htonl .little (1#32 <<< (32 - b.size.toNat)))).toNat =
      (a.sAddr .big - htonl .big (1#32 <<< (32 - b.size.toNat))).toNat := by
    show _ = (loadWord .big a.addr - 1#32 <<< (32 - b.size.toNat)).toNat
    rw [BitVec.toNat_sub, hbit]
    omega
  unfold prevEntry
  rw [setSAddr_little_eq hdiff]

end

/-- The entry that 6to4 pushes. -/
def sixToFourEntry (h : Host) (a : Cidr) : Cidr :=
  ⟨.inet6, 48, fun i => [0x20, 0x02, byte (a.sAddr h) 3, byte (a.sAddr h) 2, byte (a.sAddr h) 1,
    byte (a.sAddr h) 0].getD i 0⟩

/-- The address reads the same backwards. -/
def Palindrome (a : Cidr) : Prop := a.addr 0 = a.addr 3 ∧ a.addr 1 = a.addr 2

/-- An entry has the 6to4 bytes of an address. -/
structure SixToFour (a n : Cidr) : Prop where
  first : n.addr 0 = 0x20
  second : n.addr 1 = 0x02
  rest : ∀ i < 4, n.addr (2 + i) = a.addr i

theorem sixToFourEntry_iff (a : Cidr) : SixToFour a (sixToFourEntry .little a) ↔ Palindrome a := by
  obtain ⟨h3, h2, h1, h0⟩ := byte_word (a.addr 3) (a.addr 2) (a.addr 1) (a.addr 0)
  have hentry : ∀ i < 4, (sixToFourEntry .little a).addr (2 + i) = a.addr (3 - i) := by
    intro i hi
    obtain rfl | rfl | rfl | rfl : i = 0 ∨ i = 1 ∨ i = 2 ∨ i = 3 := by omega
    · exact h3
    · exact h2
    · exact h1
    · exact h0
  constructor
  · intro h
    exact ⟨(h.rest 0 (by decide)).symm.trans (hentry 0 (by decide)),
      (h.rest 1 (by decide)).symm.trans (hentry 1 (by decide))⟩
  · rintro ⟨h03, h12⟩
    refine ⟨rfl, rfl, fun i hi => ?_⟩
    rw [hentry i hi]
    obtain rfl | rfl | rfl | rfl : i = 0 ∨ i = 1 ∨ i = 2 ∨ i = 3 := by omega
    · exact h03.symm
    · exact h12.symm
    · exact h12
    · exact h03

theorem sixToFourEntry_host {a : Cidr} (h : Palindrome a) :
    sixToFourEntry .little a = sixToFourEntry .big a := by
  obtain ⟨h3, h2, h1, h0⟩ := byte_word (a.addr 3) (a.addr 2) (a.addr 1) (a.addr 0)
  unfold sixToFourEntry Cidr.sAddr
  rw [byte_loadWord a.addr (by decide), byte_loadWord a.addr (by decide),
    byte_loadWord a.addr (by decide), byte_loadWord a.addr (by decide)]
  unfold loadWord
  dsimp only
  rw [h3, h2, h1, h0, h.1, h.2]

/-- The size of an IPv4 entry leaves a shift by less than 32 bits. -/
def Sized (a : Cidr) : Prop := 1 ≤ a.size.toNat ∧ a.size.toNat ≤ 32

/-- On which operands the shifts of an IPv4 operation are by less than 32 bits. -/
def Op.Defined4 (op : Op) (a : Cidr) (b : Option Cidr) : Prop :=
  match op, b with
  | .next, some b => Sized b
  | .prev, some b => Sized b
  | .network, none => Sized a
  | .broadcast, none => Sized a
  | .netmask, none => Sized a
  | .contains, some _ => Sized a
  | .howmany, some b => b.size < a.size ∨ (b.size - a.size).toNat < 32
  | _, _ => True

/-- On which operands an IPv4 operation does not depend on the byte order. -/
def Op.OrderOk (op : Op) (a : Cidr) (b : Option Cidr) : Prop :=
  match op, b with
  | .next, some b => NextFits a b.size.toNat
  | .prev, some b => PrevFits a b.size.toNat
  | .sixToFour, none => Palindrome a
  | .network, none => Sized a
  | .broadcast, none => Sized a
  | .netmask, none => Sized a
  | .contains, some _ => Sized a
  | _, _ => True

/-- The next operation of a configuration is on such operands. -/
def OrderOk (inet : Inet) (c : Config) : Prop :=
  ∀ op a b, operands inet .little c = some (op, a, b) → a.family = .inet → op.OrderOk a b

/-- The next operation, on a little-endian host, leaves this entry on top. -/
def Pushes (inet : Inet) (c : Config) (n : Cidr) : Prop :=
  ∃ c' stack, runop inet .little c = .continues c' ∧ c'.state.stack = n :: stack

/-- The next operation is the same on both hosts, has a meaning for an IPv4 entry, and next,
prev and 6to4 do on a little-endian host what their names say. -/
structure Portable (inet : Inet) (c : Config) : Prop where
  same : runop inet .little c = runop inet .big c
  defined : ∀ op a b, operands inet .little c = some (op, a, b) → a.family = .inet →
    op ≠ .howmany → runop inet .little c ≠ .undefined
  next : ∀ a b, operands inet .little c = some (.next, a, some b) → a.family = .inet →
    ∃ n, Pushes inet c n ∧ n.value = a.value + 2 ^ (32 - b.size.toNat)
  prev : ∀ a b, operands inet .little c = some (.prev, a, some b) → a.family = .inet →
    ∃ n, Pushes inet c n ∧ n.value + 2 ^ (32 - b.size.toNat) = a.value
  sixToFour : ∀ a, operands inet .little c = some (.sixToFour, a, none) → a.family = .inet →
    ∃ n, Pushes inet c n ∧ SixToFour a n

section

variable {inet : Inet} {c : Config} {op : Op} {a : Cidr} {b : Option Cidr} {s : State}

theorem run_host (hok : a.family = .inet → op.OrderOk a b) :
    op.run a b .little s = op.run a b .big s := by
  unfold Op.run Op.a1 Op.a2
  cases b with
  | none =>
    cases hfamily : a.family with
    | inet6 => cases op <;> rfl
    | inet =>
      cases op with
      | network => exact congrArg some (cidrNetwork4_host .little a s)
      | broadcast => exact congrArg some (cidrBroadcast4_host .little a s)
      | netmask => exact congrArg some (cidrNetmask4_host .little a s)
      | isPrivate => exact congrArg some (cidrPrivate4_host .little a s)
      | linklocal => exact congrArg some (cidrLinklocal4_host .little a s)
      | sixToFour =>
        exact congrArg (fun n => some (some (s.cidrPush n, true)))
          (sixToFourEntry_host (hok hfamily))
      | _ => rfl
  | some b =>
    cases hfamily : a.family with
    | inet6 => cases op <;> rfl
    | inet =>
      cases op with
      | add => exact congrArg some (cidrAdd4_host .little a b s)
      | sub => exact congrArg some (cidrSub4_host .little a b s)
      | contains => exact congrArg some (cidrContains4_host .little a b s)
      | next =>
        show some (cidrNext4 .little a b s) = some (cidrNext4 .big a b s)
        rw [cidrNext4_eq, cidrNext4_eq, nextEntry_host (hok hfamily)]
      | prev =>
        show some (cidrPrev4 .little a b s) = some (cidrPrev4 .big a b s)
        rw [cidrPrev4_eq, cidrPrev4_eq, prevEntry_host (hok hfamily)]
      | _ => rfl

/-- Without operands runop does not get to an operation. -/
theorem runop_no_operands (hop : operands inet .big c = none) :
    runop inet .little c = runop inet .big c := by
  unfold operands at hop
  unfold runop
  cases hargs : c.args with
  | nil => rfl
  | cons arg1 rest =>
    cases hfind : findOp arg1 with
    | none => simp only [hfind]
    | some op =>
      cases hstack : c.state.stack with
      | nil => simp only [hfind]
      | cons a stack =>
        simp only [hargs, hfind, hstack] at hop ⊢
        split at hop
        · rename_i htwo
          rw [if_pos htwo, if_pos htwo]
          cases rest with
          | nil => rfl
          | cons arg2 rest =>
            dsimp only at hop ⊢
            rw [cidrParse_host]
            cases hparse : cidrParse inet .big arg2 a.family with
            | invalid => rfl
            | exits => rfl
            | parsed b => simp [hparse] at hop
        · exact absurd hop (by simp)

theorem runop_host (hok : OrderOk inet c) : runop inet .little c = runop inet .big c := by
  cases hop : operands inet .big c with
  | none => exact runop_no_operands hop
  | some o =>
    obtain ⟨op, a, b⟩ := o
    have hlittle : operands inet .little c = some (op, a, b) := by rw [operands_host, hop]
    rw [runop_operands hop, runop_operands hlittle, run_host (hok op a b hlittle)]

/-- A successful operation pushes its entry. -/
theorem pushes_of_run {n : Cidr} (hop : operands inet .little c = some (op, a, b))
    (hrun : op.run a b .little c.state = some (some (c.state.cidrPush n, true))) :
    Pushes inet c n := by
  rw [Pushes, runop_operands hop, hrun]
  exact ⟨_, c.state.stack, rfl, rfl⟩

/-- Nothing else is pushed. -/
theorem pushes_unique {n n' : Cidr} (hop : operands inet .little c = some (op, a, b))
    (hrun : op.run a b .little c.state = some (some (c.state.cidrPush n, true)))
    (h : Pushes inet c n') : n' = n := by
  obtain ⟨c', stack, hc', hstack⟩ := h
  rw [runop_operands hop, hrun] at hc'
  obtain rfl := Next.continues.inj hc'
  exact (List.cons.inj hstack).1.symm

theorem not_pushes_undefined {n : Cidr} (hop : operands inet .little c = some (op, a, b))
    (hrun : op.run a b .little c.state = some none) : ¬Pushes inet c n := by
  rintro ⟨c', stack, hc', -⟩
  rw [runop_operands hop, hrun] at hc'
  exact absurd hc' (by simp [Next.ofResult])

theorem run_next (s : State) (b : Cidr) (h : a.family = .inet) :
    Op.next.run a (some b) .little s = some (if 1 ≤ b.size.toNat ∧ b.size.toNat ≤ 32 then
      some (s.cidrPush (nextEntry .little a b), true) else none) := by
  unfold Op.run Op.a2
  rw [if_pos h, ← cidrNext4_eq]
  rfl

theorem run_prev (s : State) (b : Cidr) (h : a.family = .inet) :
    Op.prev.run a (some b) .little s = some (if 1 ≤ b.size.toNat ∧ b.size.toNat ≤ 32 then
      some (s.cidrPush (prevEntry .little a b), true) else none) := by
  unfold Op.run Op.a2
  rw [if_pos h, ← cidrPrev4_eq]
  rfl

theorem run_sixToFour (s : State) (h : a.family = .inet) : Op.sixToFour.run a none .little s =
    some (some (s.cidrPush (sixToFourEntry .little a), true)) := by
  unfold Op.run Op.a1
  rw [if_pos h]
  rfl

/-- Next moves on by the size exactly when there is no carry. -/
theorem next_iff {b : Cidr} (hop : operands inet .little c = some (.next, a, some b))
    (h : a.family = .inet) :
    (∃ n, Pushes inet c n ∧ n.value = a.value + 2 ^ (32 - b.size.toNat)) ↔
      NextFits a b.size.toNat := by
  have hrun := run_next c.state b h
  by_cases hp : 1 ≤ b.size.toNat ∧ b.size.toNat ≤ 32
  · rw [if_pos hp] at hrun
    rw [← nextEntry_value hp]
    constructor
    · rintro ⟨n, hn, hvalue⟩
      rwa [pushes_unique hop hrun hn] at hvalue
    · exact fun hvalue => ⟨_, pushes_of_run hop hrun, hvalue⟩
  · rw [if_neg hp] at hrun
    constructor
    · rintro ⟨n, hn, -⟩
      exact absurd hn (not_pushes_undefined hop hrun)
    · exact fun hfits => absurd hfits.1 hp

theorem prev_iff {b : Cidr} (hop : operands inet .little c = some (.prev, a, some b))
    (h : a.family = .inet) :
    (∃ n, Pushes inet c n ∧ n.value + 2 ^ (32 - b.size.toNat) = a.value) ↔
      PrevFits a b.size.toNat := by
  have hrun := run_prev c.state b h
  by_cases hp : 1 ≤ b.size.toNat ∧ b.size.toNat ≤ 32
  · rw [if_pos hp] at hrun
    rw [← prevEntry_value hp]
    constructor
    · rintro ⟨n, hn, hvalue⟩
      rwa [pushes_unique hop hrun hn] at hvalue
    · exact fun hvalue => ⟨_, pushes_of_run hop hrun, hvalue⟩
  · rw [if_neg hp] at hrun
    constructor
    · rintro ⟨n, hn, -⟩
      exact absurd hn (not_pushes_undefined hop hrun)
    · exact fun hfits => absurd hfits.1 hp

theorem sixToFour_iff (hop : operands inet .little c = some (.sixToFour, a, none))
    (h : a.family = .inet) : (∃ n, Pushes inet c n ∧ SixToFour a n) ↔ Palindrome a := by
  have hrun := run_sixToFour c.state h
  rw [← sixToFourEntry_iff]
  constructor
  · rintro ⟨n, hn, hbytes⟩
    rwa [pushes_unique hop hrun hn] at hbytes
  · exact fun hbytes => ⟨_, pushes_of_run hop hrun, hbytes⟩

theorem map_shl1_eq_none {α : Type} {a : Cidr} (f : BitVec 32 → α) :
    (shl1 (32 - a.size)).map f = none ↔ ¬Sized a := by
  rw [shl1_size]
  unfold Sized
  split
  · rename_i hsize
    exact ⟨fun hnone => absurd hnone (by simp), fun hno => absurd hsize hno⟩
  · rename_i hsize
    exact ⟨fun _ => hsize, fun _ => rfl⟩

theorem cidrHowmany_eq_none {host : Host} {a b : Cidr} {s : State} :
    cidrHowmany host a b s = none ↔ ¬(b.size < a.size ∨ (b.size - a.size).toNat < 32) := by
  unfold cidrHowmany shl1
  by_cases hlt : b.size < a.size
  · rw [if_pos hlt]
    exact ⟨fun hno => absurd hno (by simp), fun hno => absurd (Or.inl hlt) hno⟩
  · rw [if_neg hlt]
    by_cases hshift : (b.size - a.size).toNat < 32
    · rw [if_pos hshift]
      exact ⟨fun hno => absurd hno (by simp), fun hno => absurd (Or.inr hshift) hno⟩
    · rw [if_neg hshift]
      exact ⟨fun _ hor => hor.elim hlt hshift, fun _ => rfl⟩

/-- An IPv4 operation is without a meaning when it shifts by 32 bits or more. -/
theorem run_undefined_iff (host : Host) (s : State) (h : a.family = .inet) :
    op.run a b host s = some none ↔ ¬op.Defined4 a b := by
  have hdefined {r : State × Bool} : some (some r) = some none ↔ ¬True :=
    ⟨fun hno => absurd hno (by simp), fun hno => absurd trivial hno⟩
  have hunsupported : none = some (none : Result) ↔ ¬True :=
    ⟨fun hno => absurd hno (by simp), fun hno => absurd trivial hno⟩
  have hif {p : Prop} [Decidable p] {r r' : State × Bool} :
      some (if p then some r else some r') = some none ↔ ¬True := by
    split
    · exact hdefined
    · exact hdefined
  unfold Op.run Op.a1 Op.a2
  rw [h, if_pos rfl, if_pos rfl]
  cases b with
  | none =>
    cases op with
    | network => exact Option.some_inj.trans (map_shl1_eq_none _)
    | broadcast => exact Option.some_inj.trans (map_shl1_eq_none _)
    | netmask => exact Option.some_inj.trans (map_shl1_eq_none _)
    | sixToFour => exact hdefined
    | isPrivate => exact hif
    | linklocal => exact hif
    | quiet => exact hdefined
    | pop => exact hdefined
    | print => exact hif
    | _ => exact hunsupported
  | some b =>
    cases op with
    | add =>
      show some (cidrAdd4 host a b s) = some none ↔ ¬True
      unfold cidrAdd4
      split
      · exact hdefined
      · exact hif
    | sub =>
      show some (cidrSub4 host a b s) = some none ↔ ¬True
      unfold cidrSub4
      split
      · exact hdefined
      · exact hif
    | next => exact Option.some_inj.trans (map_shl1_eq_none _)
    | prev => exact Option.some_inj.trans (map_shl1_eq_none _)
    | contains => exact Option.some_inj.trans (map_shl1_eq_none _)
    | size => exact hdefined
    | howmany => exact Option.some_inj.trans cidrHowmany_eq_none
    | _ => exact hunsupported

theorem runop_undefined {h : Host} (hop : operands inet h c = some (op, a, b)) :
    runop inet h c = .undefined ↔ op.run a b h c.state = some none := by
  rw [runop_operands hop]
  cases op.run a b h c.state with
  | none => exact ⟨fun hno => absurd hno (by simp), fun hno => absurd hno (by simp)⟩
  | some r =>
    cases r with
    | none => exact ⟨fun _ => rfl, fun _ => rfl⟩
    | some r => exact ⟨fun hno => absurd hno (by simp [Next.ofResult]), fun hno => absurd hno (by simp)⟩

theorem Op.OrderOk.defined (hop : op ≠ .howmany) (h : op.OrderOk a b) : op.Defined4 a b := by
  cases b with
  | none => cases op <;> first | exact trivial | exact h
  | some b =>
    cases op with
    | howmany => exact absurd rfl hop
    | next => exact h.1
    | prev => exact h.1
    | contains => exact h
    | _ => exact trivial

/-- One step. -/
theorem portable_iff (inet : Inet) (c : Config) : Portable inet c ↔ OrderOk inet c := by
  constructor
  · intro hp op a b hop h
    have hdefined (hno : op ≠ .howmany) : op.Defined4 a b := by
      have hrun := hp.defined op a b hop h hno
      rwa [Ne, runop_undefined hop, run_undefined_iff _ _ h, not_not] at hrun
    cases b with
    | none =>
      cases op with
      | sixToFour => exact (sixToFour_iff hop h).mp (hp.sixToFour a hop h)
      | network => exact hdefined (by simp)
      | broadcast => exact hdefined (by simp)
      | netmask => exact hdefined (by simp)
      | _ => exact trivial
    | some b =>
      cases op with
      | next => exact (next_iff hop h).mp (hp.next a b hop h)
      | prev => exact (prev_iff hop h).mp (hp.prev a b hop h)
      | contains => exact hdefined (by simp)
      | _ => exact trivial
  · intro hok
    refine ⟨runop_host hok, fun op a b hop h hno => ?_, fun a b hop h => ?_, fun a b hop h => ?_,
      fun a hop h => ?_⟩
    · rw [Ne, runop_undefined hop, run_undefined_iff _ _ h, not_not]
      exact (hok op a b hop h).defined hno
    · exact (next_iff hop h).mpr (hok _ a _ hop h)
    · exact (prev_iff hop h).mpr (hok _ a _ hop h)
    · exact (sixToFour_iff hop h).mpr (hok _ a _ hop h)

end

section

variable (inet : Inet) (base : List Byte) (args : List (List Byte))

/-- While every step is on such operands, both hosts go through the same configurations. -/
theorem reach_host (h : ∀ c, Reach inet .little base args c → OrderOk inet c) (c : Config) :
    Reach inet .little base args c ↔ Reach inet .big base args c := by
  constructor
  · intro hc
    induction hc with
    | start s hargs hs => exact Reach.start s hargs (by rwa [← start_host inet .little])
    | step c c' hc hstep ih =>
      exact Reach.step c c' ih (by rwa [← runop_host (h c hc)])
  · intro hc
    induction hc with
    | start s hargs hs => exact Reach.start s hargs (by rwa [start_host inet .little])
    | step c c' _ hstep ih => exact Reach.step c c' ih (by rwa [runop_host (h c ih)])

/-- The argument vectors for which every step is portable are those whose steps are all on
operands without a carry out of a byte, and then both hosts compute the same. -/
theorem byte_order_iff :
    ((∀ c, Reach inet .little base args c → Portable inet c) ↔
      ∀ c, Reach inet .little base args c → OrderOk inet c) ∧
    ((∀ c, Reach inet .little base args c → OrderOk inet c) →
      ∀ c, Reach inet .little base args c ↔ Reach inet .big base args c) := by
  refine ⟨?_, reach_host inet base args⟩
  simp only [portable_iff]

end

/-- inet_pton where it is asked for 10.0.0.255. -/
def tenNet : Inet where
  pton4 s := if s = bytesOf "10.0.0.255" then some fun i => [10, 0, 0, 255].getD i 0 else none
  pton6 _ := none

/-- The first four bytes on top after one operation. -/
def topBytes (h : Host) (base : String) (args : List String) : Option (List Byte) :=
  match start tenNet h (bytesOf base) with
  | none => none
  | some s =>
      match runop tenNet h ⟨args.map bytesOf, 0, s⟩ with
      | .continues c => c.state.stack.head?.map fun n => (List.range 4).map n.addr
      | _ => none

/-- The address behind 10.0.0.255 is 10.0.0.0 on a little-endian host, and 6to4 takes its
bytes backwards. -/
theorem next_loses_carry :
    (∃ c, Reach tenNet .little (bytesOf "10.0.0.255") [bytesOf "next", bytesOf "32"] c ∧
      ¬Portable tenNet c) ∧
    topBytes .little "10.0.0.255" ["next", "32"] = some [10, 0, 0, 0] ∧
    topBytes .big "10.0.0.255" ["next", "32"] = some [10, 0, 1, 0] ∧
    topBytes .little "10.0.0.255" ["6to4"] = some [0x20, 0x02, 255, 0] ∧
    topBytes .big "10.0.0.255" ["6to4"] = some [0x20, 0x02, 10, 0] := by
  refine ⟨⟨_, Reach.start _ (by simp) rfl, fun h => ?_⟩, by decide +kernel, by decide +kernel,
    by decide +kernel, by decide +kernel⟩
  have hok := (portable_iff _ _).mp h .next _ _ rfl rfl
  exact absurd hok.2 (by decide)

end Iot7688.Owipcalc
