import Iot7688.Lib.Digits
import Iot7688.OwipcalcSize

/-!
The operations that count, on addresses as numbers. The bytes of an IPv6 address are
added and subtracted one after the other with a carry. Where the result does not fit, the
IPv6 operations leave the wrapped one on the stack, and next and prev count in whole
bytes.
-/
namespace Iot7688.Owipcalc

open Lib

def Cidr.number (a : Cidr) : ℕ := beValue a.addr (a.family.bits / 8)

/-- The operation has this value if it fits, with this size, and fails if it does not. -/
structure Yields (op : Op) (h : Host) (a b : Cidr) (s : State) (size : BitVec 32) (fits : Prop)
    (value : ℕ) : Prop where
  right : fits → ∃ n, op.run a (some b) h s = some (some (s.cidrPush n, true)) ∧
    n.number = value ∧ n.family = a.family ∧ n.size = size
  fails : ¬fits → ∃ s', op.run a (some b) h s = some (some (s', false))

/-- Add and sub are exact, a failure leaves a copy of the base, and sub undoes add. -/
structure Exact (h : Host) (a b : Cidr) (s : State) : Prop where
  add : Yields .add h a b s a.size (a.number + b.number < 2 ^ a.family.bits) (a.number + b.number)
  sub : Yields .sub h a b s a.size (b.number ≤ a.number) (a.number - b.number)
  copies : ∀ (op : Op) s', op = .add ∨ op = .sub → op.run a (some b) h s = some (some (s', false)) →
    s' = s.cidrPush a
  restores : ∀ n, Op.add.run a (some b) h s = some (some (s.cidrPush n, true)) →
    ∃ n', Op.sub.run n (some b) h (s.cidrPush n) = some (some ((s.cidrPush n).cidrPush n', true)) ∧
      n'.number = a.number

/-- Next and prev count in steps of the networks of the size. -/
structure Counts (h : Host) (a b : Cidr) (s : State) : Prop where
  next : Yields .next h a b s b.size (a.number + 2 ^ (128 - b.size.toNat) < 2 ^ 128)
    (a.number + 2 ^ (128 - b.size.toNat))
  prev : Yields .prev h a b s b.size (2 ^ (128 - b.size.toNat) ≤ a.number)
    (a.number - 2 ^ (128 - b.size.toNat))
  restores : ∀ n, Op.next.run a (some b) h s = some (some (s.cidrPush n, true)) →
    ∃ n', Op.prev.run n (some b) h (s.cidrPush n) = some (some ((s.cidrPush n).cidrPush n', true)) ∧
      n'.number = a.number

section

variable {x y : Byte} {carry : ℕ}

theorem byte_add (hcarry : carry ≤ 1) : (x + (y + carry.toUInt8)).toNat +
    2 ^ 8 * (if 256 ≤ x.toNat + y.toNat + carry then 1 else 0) = x.toNat + y.toNat + carry := by
  have hx := x.toNat_lt
  have hy := y.toNat_lt
  rw [UInt8.toNat_add, UInt8.toNat_add, Nat.toUInt8, UInt8.toNat_ofNat']
  split <;> omega

theorem byte_sub (hcarry : carry ≤ 1) : (x - (y + carry.toUInt8)).toNat + (y.toNat + carry) =
    x.toNat + 2 ^ 8 * (if x.toNat < y.toNat + carry then 1 else 0) := by
  have hx := x.toNat_lt
  have hy := y.toNat_lt
  rw [UInt8.toNat_sub, UInt8.toNat_add, Nat.toUInt8, UInt8.toNat_ofNat']
  split <;> omega

theorem ite_one_le (p : Prop) [Decidable p] : (if p then 1 else 0) ≤ 1 := by
  split
  · exact le_rfl
  · exact Nat.zero_le 1

end

/-- The rest of a chain leaves the digit that was written, and reads what was in front. -/
theorem chain_step {r x : Mem} {idx : ℕ} {d : Byte}
    (h : ∀ i, idx < i → r i = Function.update x (idx + 1) d i) :
    (∀ i, idx + 1 < i → r i = x i) ∧
      beValue r (idx + 1 + 1) = beValue r (idx + 1) * 2 ^ 8 + d.toNat ∧
      beValue (Function.update x (idx + 1) d) (idx + 1) = beValue x (idx + 1) := by
  refine ⟨fun i hi => ?_, ?_, beValue_congr fun i hi => Function.update_of_ne (by omega) _ _⟩
  · rw [h i (by omega), Function.update_of_ne (by omega)]
  · rw [beValue, h (idx + 1) (Nat.lt_succ_self idx), Function.update_self]

theorem carry_weight (idx c : ℕ) :
    2 ^ (8 * (idx + 1 + 1)) * c = 2 ^ 8 * (2 ^ (8 * (idx + 1)) * c) := by
  rw [Nat.mul_succ, Nat.pow_add]
  ring

/-- The chain from a byte downwards adds the numbers in front of it. -/
theorem addBytes_value (y : Mem) (idx : ℕ) {carry : ℕ} (hcarry : carry ≤ 1) (x : Mem) :
    (addBytes y idx carry x).2 ≤ 1 ∧ (∀ i, idx < i → (addBytes y idx carry x).1 i = x i) ∧
      beValue (addBytes y idx carry x).1 (idx + 1) +
        2 ^ (8 * (idx + 1)) * (addBytes y idx carry x).2 =
      beValue x (idx + 1) + beValue y (idx + 1) + carry := by
  induction idx generalizing carry x with
  | zero =>
    have hbyte := byte_add (x := x 0) (y := y 0) hcarry
    refine ⟨ite_one_le _, fun i hi => Function.update_of_ne (by omega) _ _, ?_⟩
    simp only [addBytes, beValue, Function.update_self]
    omega
  | succ idx ih =>
    have hbyte := byte_add (x := x (idx + 1)) (y := y (idx + 1)) hcarry
    have hle := ite_one_le (256 ≤ (x (idx + 1)).toNat + (y (idx + 1)).toNat + carry)
    rw [addBytes]
    generalize (if 256 ≤ (x (idx + 1)).toNat + (y (idx + 1)).toNat + carry then 1 else 0) = c
      at hbyte hle ⊢
    obtain ⟨hlast, hframe, hvalue⟩ :=
      ih hle (Function.update x (idx + 1) (x (idx + 1) + (y (idx + 1) + carry.toUInt8)))
    generalize addBytes y idx c _ = r at hlast hframe hvalue ⊢
    obtain ⟨hrest, hdigit, hfront⟩ := chain_step hframe
    refine ⟨hlast, hrest, ?_⟩
    rw [hfront] at hvalue
    rw [hdigit, carry_weight, beValue.eq_2 x, beValue.eq_2 y]
    omega

theorem subBytes_value (y : Mem) (idx : ℕ) {carry : ℕ} (hcarry : carry ≤ 1) (x : Mem) :
    (subBytes y idx carry x).2 ≤ 1 ∧ (∀ i, idx < i → (subBytes y idx carry x).1 i = x i) ∧
      beValue (subBytes y idx carry x).1 (idx + 1) + (beValue y (idx + 1) + carry) =
      beValue x (idx + 1) + 2 ^ (8 * (idx + 1)) * (subBytes y idx carry x).2 := by
  induction idx generalizing carry x with
  | zero =>
    have hbyte := byte_sub (x := x 0) (y := y 0) hcarry
    refine ⟨ite_one_le _, fun i hi => Function.update_of_ne (by omega) _ _, ?_⟩
    simp only [subBytes, beValue, Function.update_self]
    omega
  | succ idx ih =>
    have hbyte := byte_sub (x := x (idx + 1)) (y := y (idx + 1)) hcarry
    have hle := ite_one_le ((x (idx + 1)).toNat < (y (idx + 1)).toNat + carry)
    rw [subBytes]
    generalize (if (x (idx + 1)).toNat < (y (idx + 1)).toNat + carry then 1 else 0) = c
      at hbyte hle ⊢
    obtain ⟨hlast, hframe, hvalue⟩ :=
      ih hle (Function.update x (idx + 1) (x (idx + 1) - (y (idx + 1) + carry.toUInt8)))
    generalize subBytes y idx c _ = r at hlast hframe hvalue ⊢
    obtain ⟨hrest, hdigit, hfront⟩ := chain_step hframe
    refine ⟨hlast, hrest, ?_⟩
    rw [hfront] at hvalue
    rw [hdigit, carry_weight, beValue.eq_2 x, beValue.eq_2 y]
    omega

section

variable {h : Host} {a b : Cidr} {s : State}

theorem Cidr.number_lt (a : Cidr) : a.number < 2 ^ a.family.bits := by
  have hbits : 8 * (a.family.bits / 8) = a.family.bits := by
    cases a.family <;> rfl
  rw [← hbits]
  exact beValue_lt a.addr _

theorem number_inet (ha : a.family = .inet) : a.number = (a.sAddr .big).toNat := by
  rw [Cidr.number, ha]
  show beValue a.addr 4 = (word (a.addr 0) (a.addr 1) (a.addr 2) (a.addr 3)).toNat
  rw [toNat_word]
  simp only [beValue]
  omega

theorem number_inet6 (ha : a.family = .inet6) : a.number = beValue a.addr 16 := by
  rw [Cidr.number, ha]
  rfl

theorem number_setSAddr (ha : a.family = .inet) (x : BitVec 32) :
    (a.setSAddr .big x).number = x.toNat := by
  rw [number_inet (show (a.setSAddr .big x).family = .inet from ha)]
  exact congrArg BitVec.toNat (loadWord_storeWord x a.addr)

theorem cidrAdd4_eq (ha : a.family = .inet) (hb : b.family = .inet) : cidrAdd4 h a b s =
    if a.number + b.number < 2 ^ 32 then
      some (s.cidrPush (a.setSAddr .big (a.sAddr .big + b.sAddr .big)), true)
    else some (s.cidrPush a, false) := by
  have hx := (a.sAddr .big).isLt
  have hwrap : a.sAddr .big + b.sAddr .big < a.sAddr .big ↔ ¬a.number + b.number < 2 ^ 32 := by
    rw [BitVec.lt_def, BitVec.toNat_add, number_inet ha, number_inet hb]
    omega
  have hfamily : ¬(a.family ≠ .inet ∨ b.family ≠ .inet) := by simp [ha, hb]
  rw [cidrAdd4_host, cidrAdd4]
  simp only [ntohl_sAddr, setSAddr_htonl, if_neg hfamily, hwrap, ite_not]

theorem cidrSub4_eq (ha : a.family = .inet) (hb : b.family = .inet) : cidrSub4 h a b s =
    if b.number ≤ a.number then
      some (s.cidrPush (a.setSAddr .big (a.sAddr .big - b.sAddr .big)), true)
    else some (s.cidrPush a, false) := by
  have hx := (a.sAddr .big).isLt
  have hy := (b.sAddr .big).isLt
  have hwrap : a.sAddr .big < a.sAddr .big - b.sAddr .big ↔ ¬b.number ≤ a.number := by
    rw [BitVec.lt_def, BitVec.toNat_sub, number_inet ha, number_inet hb]
    omega
  have hfamily : ¬(a.family ≠ .inet ∨ b.family ≠ .inet) := by simp [ha, hb]
  rw [cidrSub4_host, cidrSub4]
  simp only [ntohl_sAddr, setSAddr_htonl, if_neg hfamily, hwrap, ite_not]

/-- The entry with the bytes of a chain. -/
def Cidr.withBytes (a : Cidr) (r : Mem × ℕ) : Cidr := { a with addr := r.1 }

theorem number_withBytes (ha : a.family = .inet6) (r : Mem × ℕ) :
    (a.withBytes r).number = beValue r.1 16 :=
  number_inet6 (show (a.withBytes r).family = .inet6 from ha)

/-- Addition of IPv6 addresses with the carry out. -/
theorem cidrAdd6_eq (ha : a.family = .inet6) (hb : b.family = .inet6) : ∃ n carry, carry ≤ 1 ∧
    cidrAdd6 h a b s = some (s.cidrPush n, decide (carry = 0)) ∧
    n.number + 2 ^ 128 * carry = a.number + b.number ∧ n.family = a.family ∧ n.size = a.size := by
  obtain ⟨hlast, -, hvalue⟩ := addBytes_value b.addr 15 (Nat.zero_le 1) a.addr
  have hfamily : ¬(a.family ≠ .inet6 ∨ b.family ≠ .inet6) := by simp [ha, hb]
  refine ⟨a.withBytes (addBytes b.addr 15 0 a.addr), _, hlast, ?_, ?_, rfl, rfl⟩
  · rw [cidrAdd6, if_neg hfamily]
    rfl
  · rw [number_inet6 ha, number_inet6 hb, number_withBytes ha]
    simpa only [Nat.reduceAdd, Nat.reduceMul, Nat.add_zero] using hvalue

theorem cidrSub6_eq (ha : a.family = .inet6) (hb : b.family = .inet6) : ∃ n carry, carry ≤ 1 ∧
    cidrSub6 h a b s = some (s.cidrPush n, decide (carry = 0)) ∧
    n.number + b.number = a.number + 2 ^ 128 * carry ∧ n.family = a.family ∧ n.size = a.size := by
  obtain ⟨hlast, -, hvalue⟩ := subBytes_value b.addr 15 (Nat.zero_le 1) a.addr
  have hfamily : ¬(a.family ≠ .inet6 ∨ b.family ≠ .inet6) := by simp [ha, hb]
  refine ⟨a.withBytes (subBytes b.addr 15 0 a.addr), _, hlast, ?_, ?_, rfl, rfl⟩
  · rw [cidrSub6, if_neg hfamily]
    rfl
  · rw [number_inet6 ha, number_inet6 hb, number_withBytes ha]
    simpa only [Nat.reduceAdd, Nat.reduceMul, Nat.add_zero] using hvalue

/-- The steps of next and prev: the last whole byte of the prefix changes by one. -/
def stepOf (b : Cidr) : ℕ := 2 ^ (8 * (15 - sizeIndex b))

/-- One more in a byte is a step more in the address. -/
theorem step_value {x r : Mem} {idx d e : ℕ} (hidx : idx ≤ 15) (hframe : ∀ i, idx < i → r i = x i)
    (h : beValue r (idx + 1) + d = beValue x (idx + 1) + e) :
    beValue r 16 + d * 2 ^ (8 * (15 - idx)) = beValue x 16 + e * 2 ^ (8 * (15 - idx)) := by
  have hsuffix := beValue_suffix (show idx + 1 ≤ 16 by omega) fun i hi _ => hframe i hi
  rw [show 16 - (idx + 1) = 15 - idx by omega] at hsuffix
  have hscaled := congrArg (· * 2 ^ (8 * (15 - idx))) h
  simp only [Nat.add_mul] at hscaled
  omega

theorem step_whole {idx : ℕ} (hidx : idx ≤ 15) :
    2 ^ (8 * (idx + 1)) * 2 ^ (8 * (15 - idx)) = 2 ^ 128 := by
  rw [← Nat.pow_add]
  congr 1
  omega

/-- How next and prev end: the size is set where there was no carry out. -/
theorem stepped (r : Mem × ℕ) : ∃ n, n.addr = r.1 ∧ n.family = a.family ∧ (r.2 = 0 → n.size = b.size) ∧
    (if r.2 ≠ 0 then some (s.cidrPush { a with addr := r.1 }, false)
      else some (s.cidrPush { a with addr := r.1, size := b.size }, true)) =
    some (s.cidrPush n, decide (r.2 = 0)) := by
  by_cases hcarry : r.2 = 0
  · rw [if_neg (not_not.mpr hcarry), decide_eq_true hcarry]
    exact ⟨{ a.withBytes r with size := b.size }, rfl, rfl, fun _ => rfl, rfl⟩
  · rw [if_pos hcarry, decide_eq_false hcarry]
    exact ⟨a.withBytes r, rfl, rfl, fun h0 => absurd h0 hcarry, rfl⟩

theorem size_ne_zero (hb : 1 ≤ b.size.toNat) : b.size ≠ 0 := by
  rintro h0
  rw [h0] at hb
  exact absurd hb (by decide)

theorem cidrNext6_eq (ha : a.family = .inet6) (hb : 1 ≤ b.size.toNat ∧ b.size.toNat ≤ 128) :
    ∃ n carry, carry ≤ 1 ∧ cidrNext6 h a b s = some (s.cidrPush n, decide (carry = 0)) ∧
      n.number + 2 ^ 128 * carry = a.number + stepOf b ∧ n.family = a.family ∧
      (carry = 0 → n.size = b.size) := by
  have hidx := sizeIndex_le hb.2
  obtain ⟨hlast, hframe, hvalue⟩ := addBytes_value (fun _ => 0) (sizeIndex b) le_rfl a.addr
  obtain ⟨n, haddr, hfamily, hsize, hrun⟩ :=
    stepped (a := a) (b := b) (s := s) (addBytes (fun _ => 0) (sizeIndex b) 1 a.addr)
  rw [beValue_zero, Nat.add_zero] at hvalue
  have hwhole := step_value (e := 1) hidx hframe hvalue
  rw [Nat.mul_right_comm, step_whole hidx, Nat.one_mul, ← number_inet6 ha, ← haddr,
    ← number_inet6 (hfamily.trans ha)] at hwhole
  refine ⟨n, _, hlast, ?_, hwhole, hfamily, hsize⟩
  rw [cidrNext6, if_neg (size_ne_zero hb.1), if_neg (not_lt.mpr hidx)]
  exact hrun

theorem cidrPrev6_eq (ha : a.family = .inet6) (hb : 1 ≤ b.size.toNat ∧ b.size.toNat ≤ 128) :
    ∃ n carry, carry ≤ 1 ∧ cidrPrev6 h a b s = some (s.cidrPush n, decide (carry = 0)) ∧
      n.number + stepOf b = a.number + 2 ^ 128 * carry ∧ n.family = a.family ∧
      (carry = 0 → n.size = b.size) := by
  have hidx := sizeIndex_le hb.2
  obtain ⟨hlast, hframe, hvalue⟩ := subBytes_value (fun _ => 0) (sizeIndex b) le_rfl a.addr
  obtain ⟨n, haddr, hfamily, hsize, hrun⟩ :=
    stepped (a := a) (b := b) (s := s) (subBytes (fun _ => 0) (sizeIndex b) 1 a.addr)
  rw [beValue_zero, Nat.zero_add] at hvalue
  have hwhole := step_value (d := 1) hidx hframe hvalue
  rw [Nat.mul_right_comm, step_whole hidx, Nat.one_mul, ← number_inet6 ha, ← haddr,
    ← number_inet6 (hfamily.trans ha)] at hwhole
  refine ⟨n, _, hlast, ?_, hwhole, hfamily, hsize⟩
  rw [cidrPrev6, if_neg (size_ne_zero hb.1), if_neg (not_lt.mpr hidx)]
  exact hrun

theorem run_inet {op : Op} {f : Binary} (ha : a.family = .inet) (hf : op.f4a2 = some f) :
    op.run a (some b) h s = some (f h a b s) := by
  unfold Op.run Op.a2
  rw [ha, if_pos rfl, hf]
  rfl

theorem run_inet6 {op : Op} {f : Binary} (ha : a.family = .inet6) (hf : op.f6a2 = some f) :
    op.run a (some b) h s = some (f h a b s) := by
  unfold Op.run Op.a2
  rw [ha, if_neg (by decide), hf]
  rfl

theorem cidrPush_inj {n n' : Cidr} (heq : s.cidrPush n = s.cidrPush n') : n = n' := by
  have hstack : n :: s.stack = n' :: s.stack := congrArg State.stack heq
  exact (List.cons.inj hstack).1

section

variable {op : Op} {size : BitVec 32} {v : ℕ} {n : Cidr} {carry : ℕ}

/-- An operation that fails where there is a carry out. -/
theorem yields_of_flag {fits : Prop} (hfits : fits ↔ carry = 0)
    (hrun : op.run a (some b) h s = some (some (s.cidrPush n, decide (carry = 0))))
    (hvalue : carry = 0 → n.number = v) (hfamily : n.family = a.family)
    (hsize : carry = 0 → n.size = size) : Yields op h a b s size fits v := by
  constructor
  · intro h0
    rw [hfits] at h0
    rw [decide_eq_true h0] at hrun
    exact ⟨n, hrun, hvalue h0, hfamily, hsize h0⟩
  · intro hover
    rw [hfits] at hover
    rw [decide_eq_false hover] at hrun
    exact ⟨_, hrun⟩

theorem number_lt6 (ha : a.family = .inet6) : a.number < 2 ^ 128 := by
  have hlt := a.number_lt
  rwa [ha] at hlt

/-- A carry out is a sum that does not fit. -/
theorem yields_of_carry (ha : a.family = .inet6) (hcarry : carry ≤ 1)
    (hrun : op.run a (some b) h s = some (some (s.cidrPush n, decide (carry = 0))))
    (hvalue : n.number + 2 ^ 128 * carry = v) (hfamily : n.family = a.family)
    (hsize : carry = 0 → n.size = size) : Yields op h a b s size (v < 2 ^ 128) v := by
  have hn := number_lt6 (hfamily.trans ha)
  exact yields_of_flag (by omega) hrun (fun h0 => by omega) hfamily hsize

theorem yields_of_borrow (ha : a.family = .inet6) (hcarry : carry ≤ 1)
    (hrun : op.run a (some b) h s = some (some (s.cidrPush n, decide (carry = 0))))
    (hvalue : n.number + v = a.number + 2 ^ 128 * carry) (hfamily : n.family = a.family)
    (hsize : carry = 0 → n.size = size) : Yields op h a b s size (v ≤ a.number) (a.number - v) := by
  have hn := number_lt6 (hfamily.trans ha)
  exact yields_of_flag (by omega) hrun (fun h0 => by omega) hfamily hsize

theorem Yields.of_run {fits : Prop} (hy : Yields op h a b s size fits v)
    (hrun : op.run a (some b) h s = some (some (s.cidrPush n, true))) :
    fits ∧ n.number = v ∧ n.family = a.family ∧ n.size = size := by
  have hfits : fits := by
    by_contra hnot
    obtain ⟨s', hrun'⟩ := hy.fails hnot
    have hok : true = false :=
      congrArg Prod.snd (Option.some.inj (Option.some.inj (hrun.symm.trans hrun')))
    cases hok
  obtain ⟨n', hrun', hn⟩ := hy.right hfits
  have hsame := congrArg Prod.fst (Option.some.inj (Option.some.inj (hrun.symm.trans hrun')))
  rw [cidrPush_inj hsame]
  exact ⟨hfits, hn⟩

/-- Where an operation does not fail it has one value. -/
theorem Yields.value_eq {size' : BitVec 32} {fits fits' : Prop} {v' : ℕ}
    (hy : Yields op h a b s size fits v) (hy' : Yields op h a b s size' fits' v') (hfits : fits) :
    fits' ∧ v = v' := by
  obtain ⟨n, hrun, hvalue, -⟩ := hy.right hfits
  obtain ⟨hfits', hvalue', -⟩ := hy'.of_run hrun
  exact ⟨hfits', hvalue.symm.trans hvalue'⟩

end

theorem stepOf_eq (hb : 1 ≤ b.size.toNat ∧ b.size.toNat ≤ 128) :
    stepOf b = 2 ^ (128 - b.size.toNat) ↔ b.size.toNat % 8 = 0 := by
  unfold stepOf sizeIndex
  rw [Nat.pow_right_inj (by norm_num)]
  omega

theorem yields_next (ha : a.family = .inet6) (hb : 1 ≤ b.size.toNat ∧ b.size.toNat ≤ 128) :
    Yields .next h a b s b.size (a.number + stepOf b < 2 ^ 128) (a.number + stepOf b) := by
  obtain ⟨n, carry, hcarry, heq, hvalue, hfamily, hsize⟩ := cidrNext6_eq (h := h) (s := s) ha hb
  exact yields_of_carry ha hcarry ((run_inet6 ha rfl).trans (congrArg some heq)) hvalue hfamily hsize

theorem yields_prev (ha : a.family = .inet6) (hb : 1 ≤ b.size.toNat ∧ b.size.toNat ≤ 128) :
    Yields .prev h a b s b.size (stepOf b ≤ a.number) (a.number - stepOf b) := by
  obtain ⟨n, carry, hcarry, heq, hvalue, hfamily, hsize⟩ := cidrPrev6_eq (h := h) (s := s) ha hb
  exact yields_of_borrow ha hcarry ((run_inet6 ha rfl).trans (congrArg some heq)) hvalue hfamily hsize

theorem counts_iff (ha : a.family = .inet6) (hb : 1 ≤ b.size.toNat ∧ b.size.toNat ≤ 128) :
    Counts h a b s ↔ b.size.toNat % 8 = 0 := by
  have hnext := yields_next (h := h) (s := s) ha hb
  have hprev := yields_prev (h := h) (s := s) ha hb
  rw [← stepOf_eq hb]
  constructor
  · intro hcounts
    by_cases hfits : a.number + stepOf b < 2 ^ 128
    · have hsame := (hnext.value_eq hcounts.next hfits).2
      omega
    · have hsmall : stepOf b ≤ 2 ^ 120 := Nat.pow_le_pow_right (by norm_num) (by omega)
      have hsame := hprev.value_eq hcounts.prev (by omega)
      omega
  · intro hstep
    refine ⟨hstep ▸ hnext, hstep ▸ hprev, fun n hrun => ?_⟩
    obtain ⟨-, hvalue, hfamily, -⟩ := hnext.of_run hrun
    obtain ⟨n', hrun', hvalue', -⟩ := (yields_prev (s := s.cidrPush n) (hfamily.trans ha) hb).right
      (by omega)
    exact ⟨n', hrun', by omega⟩

/-- The address :: and an argument that is the number of a size. -/
def zeroEntry : Cidr := ⟨.inet6, 128, fun _ => 0⟩

def sizeEntry (p : BitVec 32) : Cidr := ⟨.inet6, p, fun _ => 0⟩

def noState : State := ⟨[], false, false, []⟩

theorem counts_iff_64 : Counts .little zeroEntry (sizeEntry 64) noState ↔ 64 % 8 = 0 :=
  counts_iff rfl ⟨by decide, by decide⟩

/-- The next /127 behind :: comes out as ::1. -/
theorem next_127_wrong : ¬Counts .little zeroEntry (sizeEntry 127) noState := by
  intro hcounts
  have hnext := yields_next (a := zeroEntry) (b := sizeEntry 127) (h := .little) (s := noState) rfl
    ⟨by decide, by decide⟩
  have hsame := (hnext.value_eq hcounts.next (by decide +kernel)).2
  exact absurd hsame (by decide +kernel)

theorem yields_add6 (ha : a.family = .inet6) (hb : b.family = .inet6) :
    Yields .add h a b s a.size (a.number + b.number < 2 ^ 128) (a.number + b.number) := by
  obtain ⟨n, carry, hcarry, heq, hvalue, hfamily, hsize⟩ := cidrAdd6_eq (h := h) (s := s) ha hb
  exact yields_of_carry ha hcarry ((run_inet6 ha rfl).trans (congrArg some heq)) hvalue hfamily
    fun _ => hsize

theorem yields_sub6 (ha : a.family = .inet6) (hb : b.family = .inet6) :
    Yields .sub h a b s a.size (b.number ≤ a.number) (a.number - b.number) := by
  obtain ⟨n, carry, hcarry, heq, hvalue, hfamily, hsize⟩ := cidrSub6_eq (h := h) (s := s) ha hb
  exact yields_of_borrow ha hcarry ((run_inet6 ha rfl).trans (congrArg some heq)) hvalue hfamily
    fun _ => hsize

theorem yields_add4 (ha : a.family = .inet) (hb : b.family = .inet) :
    Yields .add h a b s a.size (a.number + b.number < 2 ^ 32) (a.number + b.number) := by
  have hrun : Op.add.run a (some b) h s = some _ :=
    (run_inet ha rfl).trans (congrArg some (cidrAdd4_eq ha hb))
  constructor
  · intro hfits
    rw [if_pos hfits] at hrun
    refine ⟨_, hrun, ?_, rfl, rfl⟩
    rw [number_setSAddr ha, BitVec.toNat_add, ← number_inet ha, ← number_inet hb]
    exact Nat.mod_eq_of_lt hfits
  · intro hover
    rw [if_neg hover] at hrun
    exact ⟨_, hrun⟩

theorem yields_sub4 (ha : a.family = .inet) (hb : b.family = .inet) :
    Yields .sub h a b s a.size (b.number ≤ a.number) (a.number - b.number) := by
  have hrun : Op.sub.run a (some b) h s = some _ :=
    (run_inet ha rfl).trans (congrArg some (cidrSub4_eq ha hb))
  constructor
  · intro hfits
    rw [if_pos hfits] at hrun
    refine ⟨_, hrun, ?_, rfl, rfl⟩
    have hle : b.sAddr .big ≤ a.sAddr .big := by
      rw [BitVec.le_def, ← number_inet ha, ← number_inet hb]
      exact hfits
    rw [number_setSAddr ha, BitVec.toNat_sub_of_le hle, ← number_inet ha, ← number_inet hb]
  · intro hunder
    rw [if_neg hunder] at hrun
    exact ⟨_, hrun⟩

theorem copies_of_ite {fits : Prop} [Decidable fits] {n : Cidr} {s' : State}
    (heq : (if fits then some (s.cidrPush n, true) else some (s.cidrPush a, false)) =
      some (s', false)) : s' = s.cidrPush a := by
  split at heq
  · exact absurd (congrArg Prod.snd (Option.some.inj heq)) (by simp)
  · exact (congrArg Prod.fst (Option.some.inj heq)).symm

theorem not_copies {op : Op} {v : ℕ} {fits : Prop} (hy : Yields op h a b s a.size fits v)
    (hnot : ¬fits) (hcopies : ∀ s', op.run a (some b) h s = some (some (s', false)) → s' = s.cidrPush a)
    {n : Cidr} {ok : Bool} (hrun : op.run a (some b) h s = some (some (s.cidrPush n, ok))) : n = a := by
  obtain ⟨s', hrun'⟩ := hy.fails hnot
  have hsame := congrArg Prod.fst (Option.some.inj (Option.some.inj (hrun.symm.trans hrun')))
  exact cidrPush_inj (hsame.trans (hcopies s' hrun'))

theorem exact_inet (ha : a.family = .inet) (hb : b.family = .inet) : Exact h a b s := by
  have hadd := yields_add4 (h := h) (s := s) ha hb
  have hbits : Family.inet.bits = 32 := rfl
  refine ⟨by rw [ha, hbits]; exact hadd, yields_sub4 ha hb, ?_, fun n hrun => ?_⟩
  · rintro op s' (rfl | rfl) hrun
    · rw [run_inet ha rfl, cidrAdd4_eq ha hb] at hrun
      exact copies_of_ite (Option.some.inj hrun)
    · rw [run_inet ha rfl, cidrSub4_eq ha hb] at hrun
      exact copies_of_ite (Option.some.inj hrun)
  · obtain ⟨-, hvalue, hfamily, -⟩ := hadd.of_run hrun
    obtain ⟨n', hrun', hvalue', -⟩ := (yields_sub4 (s := s.cidrPush n) (hfamily.trans ha) hb).right
      (by omega)
    exact ⟨n', hrun', by omega⟩

/-- IPv6 entries are added and subtracted right, but a failure leaves the wrapped result. -/
theorem exact_inet6 (ha : a.family = .inet6) (hb : b.family = .inet6) :
    Exact h a b s ↔ a.number + b.number < 2 ^ 128 ∧ b.number ≤ a.number := by
  have hbits : Family.inet6.bits = 128 := rfl
  have hlt := number_lt6 hb
  have hlt' := number_lt6 ha
  have hadd := yields_add6 (h := h) (s := s) ha hb
  have hsub := yields_sub6 (h := h) (s := s) ha hb
  constructor
  · intro hexact
    constructor
    · by_contra hover
      obtain ⟨n, carry, hcarry, heq, hvalue, -⟩ := cidrAdd6_eq (h := h) (s := s) ha hb
      rw [not_copies hadd hover (fun s' => hexact.copies .add s' (.inl rfl))
        ((run_inet6 ha rfl).trans (congrArg some heq))] at hvalue
      omega
    · by_contra hunder
      obtain ⟨n, carry, hcarry, heq, hvalue, -⟩ := cidrSub6_eq (h := h) (s := s) ha hb
      rw [not_copies hsub hunder (fun s' => hexact.copies .sub s' (.inr rfl))
        ((run_inet6 ha rfl).trans (congrArg some heq))] at hvalue
      omega
  · rintro ⟨hfits, hle⟩
    refine ⟨by rw [ha, hbits]; exact hadd, hsub, ?_, fun n hrun => ?_⟩
    · rintro op s' (rfl | rfl) hrun
      · obtain ⟨n, hrun', -⟩ := hadd.right hfits
        rw [hrun'] at hrun
        exact absurd (congrArg Prod.snd (Option.some.inj (Option.some.inj hrun))) (by simp)
      · obtain ⟨n, hrun', -⟩ := hsub.right hle
        rw [hrun'] at hrun
        exact absurd (congrArg Prod.snd (Option.some.inj (Option.some.inj hrun))) (by simp)
    · obtain ⟨-, hvalue, hfamily, -⟩ := hadd.of_run hrun
      obtain ⟨n', hrun', hvalue', -⟩ := (yields_sub6 (s := s.cidrPush n) (hfamily.trans ha) hb).right
        (by omega)
      exact ⟨n', hrun', by omega⟩

end

section

variable {inet : Inet} {h : Host} {arg : List Byte} {family : Family} {b : Cidr}

/-- An argument has the family of the entry it is for. -/
theorem parse_family (hparse : cidrParse inet h arg family = .parsed b) : b.family = family := by
  unfold cidrParse at hparse
  dsimp only at hparse
  split at hparse
  · cases family <;> cases hparse <;> rfl
  · split at hparse
    · cases hparse
    · split at hparse
      · cases hparse
      · next hsame =>
        cases hparse
        exact not_not.mp hsame

/-- A plain number is the address with this number. -/
theorem parse_number (hparse : cidrParse inet h arg family = .parsed b)
    (hplain : (strtoul 0 arg).2.length < arg.length ∧ (strtoul 0 arg).2 = []) :
    b.number = (strtoul 0 arg).1 := by
  have hlt := strtoul_lt 0 arg
  unfold cidrParse at hparse
  rw [if_pos hplain] at hparse
  cases family with
  | inet =>
    cases hparse
    have hword : BitVec.toNat (loadWord .big (storeWord h (htonl h (BitVec.ofNat 32 (strtoul 0 arg).1))
        fun _ => 0)) = (strtoul 0 arg).1 := by
      rw [storeWord_htonl, loadWord_storeWord, BitVec.toNat_ofNat, Nat.mod_eq_of_lt hlt]
    exact (number_inet rfl).trans hword
  | inet6 =>
    cases hparse
    have hdigits := beValue_digits (n := 15)
      (hlt.trans (Nat.pow_lt_pow_right (by decide) (by decide))) (le_refl 16)
    rw [Nat.sub_self, Nat.mul_zero, Nat.pow_zero, Nat.div_one] at hdigits
    exact (number_inet6 rfl).trans hdigits

/-- Add and sub of an entry and an argument are exact but for IPv6 results that do not
fit; a plain number stands for itself. -/
theorem exact_iff (a : Cidr) (s : State) (hparse : cidrParse inet h arg a.family = .parsed b) :
    (Exact h a b s ↔
      a.family = .inet ∨ a.number + b.number < 2 ^ 128 ∧ b.number ≤ a.number) ∧
    ((strtoul 0 arg).2.length < arg.length → (strtoul 0 arg).2 = [] →
      b.number = (strtoul 0 arg).1) := by
  have hb := parse_family hparse
  refine ⟨?_, fun hsome hall => parse_number hparse ⟨hsome, hall⟩⟩
  cases ha : a.family with
  | inet => exact iff_of_true (exact_inet ha (hb.trans ha)) (.inl rfl)
  | inet6 =>
    rw [exact_inet6 ha (hb.trans ha)]
    simp

end

/-- What the argument 1 is parsed to for an IPv6 entry. -/
def oneEntry : Cidr := ⟨.inet6, 1, fun i => (1 / 2 ^ (8 * (15 - i)) % 2 ^ 8).toUInt8⟩

theorem oneEntry_parsed : cidrParse tenNet .little (bytesOf "1") .inet6 = .parsed oneEntry := rfl

theorem exact_iff_one : (Exact .little zeroEntry oneEntry noState ↔ zeroEntry.family = .inet ∨
      zeroEntry.number + oneEntry.number < 2 ^ 128 ∧ oneEntry.number ≤ zeroEntry.number) ∧
    ((strtoul 0 (bytesOf "1")).2.length < (bytesOf "1").length → (strtoul 0 (bytesOf "1")).2 = [] →
      oneEntry.number = (strtoul 0 (bytesOf "1")).1) :=
  exact_iff zeroEntry noState oneEntry_parsed

/-- The last address. -/
def lastEntry : Cidr := ⟨.inet6, 128, fun _ => 255⟩

/-- One more than the last address leaves the first one on the stack. -/
theorem add_overflow_wraps :
    cidrParse tenNet .little (bytesOf "1") lastEntry.family = .parsed oneEntry ∧
    ¬Exact .little lastEntry oneEntry noState := by
  refine ⟨oneEntry_parsed, fun hexact => ?_⟩
  have hcarry : (addBytes oneEntry.addr 15 0 lastEntry.addr).2 ≠ 0 := by decide +kernel
  have hlast : (addBytes oneEntry.addr 15 0 lastEntry.addr).1 15 ≠ lastEntry.addr 15 := by
    decide +kernel
  have hrun : Op.add.run lastEntry (some oneEntry) .little noState =
      some (some (noState.cidrPush (lastEntry.withBytes (addBytes oneEntry.addr 15 0 lastEntry.addr)),
        false)) := by
    rw [run_inet6 (f := cidrAdd6) rfl rfl, ← decide_eq_false hcarry]
    rfl
  have hsame := cidrPush_inj (hexact.copies .add _ (.inl rfl) hrun)
  exact hlast (congrArg (fun a => a.addr 15) hsame)

end Iot7688.Owipcalc
