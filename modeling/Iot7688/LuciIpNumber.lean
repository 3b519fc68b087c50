import Iot7688.Lib.Digits
import Iot7688.Lib.Prefix
import Iot7688.LuciIpObjects

/-!
The addresses of luci.ip as numbers, and two tests of the same relation. contains puts a
word or byte mask on both addresses and compares the memory; the filter of the route dump
masks on the fly. An object stands for the addresses that share its first bits, and both
tests ask for the inclusion of such sets.
-/
namespace Iot7688.LuciIp

open Lib

/-- The address as a number, most significant byte first. -/
def Cidr.number (c : Cidr) : ℕ := beValue c.addr (c.family.bits / 8)

/-- The addresses that share the first bits. -/
def Cidr.members (c : Cidr) : Set ℕ := sharing c.family.bits c.bits.toNat c.number

/-- The object with another address. -/
def Cidr.withAddr (c : Cidr) (addr : Mem) : Cidr := { c with addr := addr }

section

variable {c : Cidr}

theorem Cidr.number_lt (c : Cidr) : c.number < 2 ^ c.family.bits := by
  have hbits : 8 * (c.family.bits / 8) = c.family.bits := by
    cases c.family <;> rfl
  rw [← hbits]
  exact beValue_lt c.addr _

theorem beValue_four (m : Mem) : beValue m 4 = (loadWord .big m).toNat := by
  show _ = (word (m 0) (m 1) (m 2) (m 3)).toNat
  rw [toNat_word]
  simp only [beValue]
  omega

theorem number_inet (hc : c.family = .inet) : c.number = (loadWord .big c.addr).toNat := by
  rw [Cidr.number, hc]
  exact beValue_four c.addr

theorem number_inet6 (hc : c.family = .inet6) : c.number = beValue c.addr 16 := by
  rw [Cidr.number, hc]
  rfl

theorem number_storeWord (hc : c.family = .inet) (x : BitVec 32) (m : Mem) :
    (c.withAddr (storeWord .big x m)).number = x.toNat := by
  rw [number_inet (c := c.withAddr (storeWord .big x m)) hc]
  exact congrArg BitVec.toNat (loadWord_storeWord x m)

end

/-- A byte under a mask with b bits. -/
theorem toNat_and_bits (x : Byte) {b : ℕ} (hb : b ≤ 8) :
    (x &&& (0xFF <<< (8 - b) : ℕ).toUInt8).toNat = x.toNat / 2 ^ (8 - b) * 2 ^ (8 - b) := by
  revert x
  apply forall_byte
  obtain rfl | rfl | rfl | rfl | rfl | rfl | rfl | rfl | rfl : b = 0 ∨ b = 1 ∨ b = 2 ∨ b = 3 ∨
    b = 4 ∨ b = 5 ∨ b = 6 ∨ b = 7 ∨ b = 8 := by omega
  all_goals decide +kernel

theorem toNat_or_bits (x : Byte) {b : ℕ} (hb : b ≤ 8) :
    (x ||| ~~~(0xFF <<< (8 - b) : ℕ).toUInt8).toNat =
      x.toNat / 2 ^ (8 - b) * 2 ^ (8 - b) + (2 ^ (8 - b) - 1) := by
  revert x
  apply forall_byte
  obtain rfl | rfl | rfl | rfl | rfl | rfl | rfl | rfl | rfl : b = 0 ∨ b = 1 ∨ b = 2 ∨ b = 3 ∨
    b = 4 ∨ b = 5 ∨ b = 6 ∨ b = 7 ∨ b = 8 := by omega
  all_goals decide +kernel

/-- Masking byte by byte masks the number. -/
theorem beValue_and_mask (m : Mem) (bits n : ℕ) :
    beValue (fun i => m i &&& maskByte bits i) n =
      beValue m n / 2 ^ (8 * n - bits) * 2 ^ (8 * n - bits) := by
  induction n with
  | zero => simp [beValue]
  | succ n ih =>
    have hbyte : (m n &&& maskByte bits n).toNat = _ :=
      toNat_and_bits (m n) (min_le_right (bits - 8 * n) 8)
    rw [beValue, ih, hbyte]
    rcases Nat.lt_or_ge bits (8 * n) with hlt | hge
    · have hb : 8 - min (bits - 8 * n) 8 = 8 := by omega
      have hk : 8 * (n + 1) - bits = 8 * n - bits + 8 := by omega
      have hzero : (m n).toNat / 2 ^ 8 = 0 := Nat.div_eq_of_lt (m n).toNat_lt
      have hdigit : (beValue m n * 2 ^ 8 + (m n).toNat) / 2 ^ 8 = beValue m n := by
        have := (m n).toNat_lt
        omega
      rw [hb, hzero, hk, beValue, Nat.pow_add, Nat.mul_comm (2 ^ (8 * n - bits)) (2 ^ 8),
        ← Nat.div_div_eq_div_mul, hdigit]
      ring
    · have hk : 8 * n - bits = 0 := by omega
      have hb : 8 - min (bits - 8 * n) 8 = 8 * (n + 1) - bits := by omega
      have hle : 8 * (n + 1) - bits ≤ 8 := by omega
      have hpow : 2 ^ 8 = 2 ^ (8 - (8 * (n + 1) - bits)) * 2 ^ (8 * (n + 1) - bits) := by
        rw [← Nat.pow_add, Nat.sub_add_cancel hle]
      rw [hk, Nat.pow_zero, Nat.div_one, Nat.mul_one, hb, beValue_succ_div m n hle, Nat.add_mul,
        Nat.mul_assoc, ← hpow]

/-- An inverted mask fills up with ones. -/
theorem beValue_or_mask (m : Mem) (bits n : ℕ) :
    beValue (fun i => m i ||| ~~~maskByte bits i) n =
      beValue (fun i => m i &&& maskByte bits i) n + (2 ^ (8 * n - bits) - 1) := by
  induction n with
  | zero => simp [beValue]
  | succ n ih =>
    have hb := min_le_right (bits - 8 * n) 8
    have hor : (m n ||| ~~~maskByte bits n).toNat = _ := toNat_or_bits (m n) hb
    have hand : (m n &&& maskByte bits n).toNat = _ := toNat_and_bits (m n) hb
    have hpos := Nat.two_pow_pos (8 * n - bits)
    rw [beValue, beValue, ih, hor, hand]
    rcases Nat.lt_or_ge bits (8 * n) with hlt | hge
    · have hb8 : 8 - min (bits - 8 * n) 8 = 8 := by omega
      have hk : 8 * (n + 1) - bits = 8 * n - bits + 8 := by omega
      rw [hb8, hk, Nat.pow_add]
      omega
    · have hk : 8 * n - bits = 0 := by omega
      have hb8 : 8 - min (bits - 8 * n) 8 = 8 * (n + 1) - bits := by omega
      rw [hk, hb8, Nat.pow_zero, Nat.sub_self, Nat.add_zero, Nat.add_assoc]

/-- The address under a mask, inverted or not. -/
def Cidr.masked (c : Cidr) (bits : ℕ) (inv : Bool) : ℕ :=
  network c.family.bits bits c.number + if inv then 2 ^ (c.family.bits - bits) - 1 else 0

theorem beValue_fill (m : Mem) (n : ℕ) (inv : Bool) : beValue (m.fill 0 n (if inv then 0xFF else 0)) n =
    if inv then 2 ^ (8 * n) - 1 else 0 := by
  have hbyte : ∀ i, i < n → m.fill 0 n (if inv then 0xFF else 0) i = if inv then 0xFF else 0 :=
    fun i hi => if_pos ⟨Nat.zero_le i, by omega⟩
  rw [beValue_congr hbyte]
  cases inv with
  | false => exact beValue_zero n
  | true =>
    show beValue (fun _ => 0xFF) n = 2 ^ (8 * n) - 1
    induction n with
    | zero => rfl
    | succ n ih =>
      have hpos := Nat.two_pow_pos (8 * n)
      have hff : (0xFF : Byte).toNat = 255 := rfl
      rw [beValue, ih fun i _ => if_pos ⟨Nat.zero_le i, by omega⟩, hff, Nat.mul_succ, Nat.pow_add]
      omega

theorem masked_zero (c : Cidr) (inv : Bool) :
    c.masked 0 inv = if inv then 2 ^ c.family.bits - 1 else 0 := by
  rw [Cidr.masked, network, Nat.sub_zero, Nat.div_eq_of_lt c.number_lt, Nat.zero_mul, Nat.zero_add]

section

variable {c : Cidr} {bits : ℤ}

theorem applyMask_zero (hlen : c.len = lenOf c.family) (inv : Bool) : ∃ addr,
    applyMask c 0 inv = some (c.withAddr addr) ∧ (c.withAddr addr).number = c.masked 0 inv := by
  have hfit : 0 ≤ c.len ∧ c.len ≤ sizeofV6 := by
    rw [hlen]
    cases c.family <;> decide
  have hnat : c.len.toNat = c.family.bits / 8 := by
    rw [hlen]
    cases c.family <;> rfl
  have hbits : 8 * (c.family.bits / 8) = c.family.bits := by
    cases c.family <;> rfl
  refine ⟨c.addr.fill 0 (c.family.bits / 8) (if inv then 0xFF else 0), ?_, ?_⟩
  · unfold applyMask
    rw [if_pos le_rfl, if_pos hfit, hnat]
    rfl
  · refine (beValue_fill c.addr _ inv).trans ?_
    rw [masked_zero, hbits]

theorem applyMask_inet (hfamily : c.family = .inet) (hpos : 0 < bits) (hle : bits ≤ 32) (inv : Bool) :
    ∃ addr, applyMask c bits inv = some (c.withAddr addr) ∧
      (c.withAddr addr).number = c.masked bits.toNat inv := by
  have hk : 32 - bits.toNat < 32 := by omega
  have hsplit : applyMask c bits inv = some (c.withAddr (storeWord .little
      (if inv then loadWord .little c.addr ||| ntohl .little (1#32 <<< (32 - bits.toNat) - 1)
        else loadWord .little c.addr &&& ntohl .little (~~~(1#32 <<< (32 - bits.toNat) - 1)))
      c.addr)) := by
    unfold applyMask
    rw [if_neg (by omega)]
    split
    · rw [if_pos hle]
      rfl
    · rename_i hother
      exact absurd (hother.symm.trans hfamily) (by decide)
  refine ⟨_, hsplit, ?_⟩
  rw [Cidr.masked, hfamily, number_inet hfamily, loadWord_eq]
  cases inv with
  | false =>
    have hand := htonl_and .little (loadWord .big c.addr) (~~~(1#32 <<< (32 - bits.toNat) - 1))
    rw [if_neg Bool.false_ne_true, if_neg Bool.false_ne_true, ← htonl, hand, storeWord_htonl,
      number_storeWord hfamily]
    exact toNat_and_mask hk _
  | true =>
    have hor := htonl_or .little (loadWord .big c.addr) (1#32 <<< (32 - bits.toNat) - 1)
    rw [if_pos rfl, if_pos rfl, ← htonl, hor, storeWord_htonl, number_storeWord hfamily]
    exact toNat_or_low hk _

theorem applyMask_inet6 (hfamily : c.family = .inet6) (hpos : 0 < bits) (hle : bits ≤ 128)
    (inv : Bool) : ∃ addr, applyMask c bits inv = some (c.withAddr addr) ∧
      (c.withAddr addr).number = c.masked bits.toNat inv := by
  have hsplit : applyMask c bits inv = some (c.withAddr fun i => if 16 ≤ i then c.addr i else
      if inv then c.addr i ||| ~~~maskByte bits.toNat i else c.addr i &&& maskByte bits.toNat i) := by
    unfold applyMask
    rw [if_neg (by omega)]
    split
    · rename_i hother
      exact absurd (hother.symm.trans hfamily) (by decide)
    · rw [if_pos hle]
      rfl
  refine ⟨_, hsplit, ?_⟩
  have hfamily' (addr : Mem) : (c.withAddr addr).family = .inet6 := hfamily
  rw [Cidr.masked, hfamily, number_inet6 hfamily, number_inet6 (hfamily' _)]
  refine (beValue_congr fun i hi => if_neg (not_le.mpr hi)).trans ?_
  cases inv with
  | false => exact beValue_and_mask c.addr bits.toNat 16
  | true =>
    refine (beValue_or_mask c.addr bits.toNat 16).trans ?_
    rw [beValue_and_mask]
    rfl

/-- A mask with bits of the family works on the number of the address only. -/
theorem applyMask_spec (hlen : c.len = lenOf c.family) (hbits : BitsOk c.family bits) (inv : Bool) :
    ∃ addr, applyMask c bits inv = some (c.withAddr addr) ∧
      (c.withAddr addr).number = c.masked bits.toNat inv := by
  obtain ⟨hge, hle⟩ := hbits
  obtain rfl | hpos := hge.eq_or_lt'
  · exact applyMask_zero hlen inv
  · cases hfamily : c.family with
    | inet =>
      rw [hfamily] at hle
      exact applyMask_inet hfamily hpos hle inv
    | inet6 =>
      rw [hfamily] at hle
      exact applyMask_inet6 hfamily hpos hle inv

end

/-- cidr_contains; none when memset or memcmp gets past an address. -/
def contains (p1 p2 : Cidr) : Option Bool :=
  if p1.family = p2.family ∧ p1.bits ≤ p2.bits then
    match applyMask p1 p1.bits false, applyMask p2 p1.bits false with
    | some a, some b =>
        if 0 ≤ a.len ∧ a.len ≤ sizeofV6 then
          some ((List.range a.len.toNat).all fun i => a.addr i = b.addr i)
        else none
    | _, _ => none
  else some false

/-- The result of a Lua function that answers a question. -/
inductive Answer
  | error
  | crash
  | boolean (b : Bool)

/-- The Lua function contains. -/
def cidrContains (env : Env) (heap : List Cidr) (stack : Stack) : Answer :=
  match checkcidr env heap stack 1 none with
  | none => .error
  | some p1 =>
      match checkcidr env heap p1.stack 2 none with
      | none => .error
      | some p2 =>
          match contains p1.val p2.val with
          | none => .crash
          | some rv => .boolean rv

/-- A prefix of a dump filter. -/
structure Prefix where
  cidr : Cidr
  exact : Bool

/-- The comparison of n bytes from byte i on, with r bits left. -/
def diffBytes (x y : Mem) (r i : ℕ) : ℕ → Bool
  | 0 => false
  | n + 1 =>
      let b : Byte := if r ≠ 0 then (0xFF <<< (8 - if 8 < r then 8 else r) : ℕ).toUInt8 else 0
      if x i &&& b ≠ y i &&& b then true
      else diffBytes x y (r - if 8 < r then 8 else r) (i + 1) n

/-- The comparison of the addresses in diff_prefix. -/
def diffAddr (family : Family) (addr : Mem) (p : Cidr) : Bool :=
  match family with
  | .inet6 => diffBytes addr p.addr (p.bits % 256).toNat 0 16
  | .inet =>
      let m := if p.bits ≠ 0 then htonl .little (~~~(1#32 <<< (32 - p.bits).toNat - 1#32)) else 0#32
      loadWord .little addr &&& m != loadWord .little p.addr &&& m

/-- diff_prefix. A filter that was not set has the family 0, here none; a message may come
without the address. -/
def diffPrefix (family : Family) (addr : Option Mem) (bits : ℤ) (p : Option Prefix) : Bool :=
  match p, addr with
  | none, _ => false
  | some _, none => true
  | some p, some addr =>
      if p.cidr.family ≠ family ∨ bits < p.cidr.bits then true
      else if diffAddr family addr p.cidr then true
      else p.exact && p.cidr.bits ≠ bits

/-- The address and the length of a route. -/
def routeOf (family : Family) (addr : Mem) (bits : ℕ) : Cidr := ⟨addr, lenOf family, bits, family⟩

/-- The first bits of p, in the addresses of its family. -/
def SameNetwork (p c : Cidr) : Prop :=
  network p.family.bits p.bits.toNat c.number = network p.family.bits p.bits.toNat p.number

section

variable {p c : Cidr}

theorem members_subset_iff (hp : BitsOk p.family p.bits) (hc : 0 ≤ c.bits)
    (hfamily : p.family = c.family) :
    c.members ⊆ p.members ↔ p.bits ≤ c.bits ∧ SameNetwork p c := by
  obtain ⟨hpge, hple⟩ := hp
  have hp : p.bits.toNat ≤ p.family.bits := by omega
  have hx := p.number_lt
  have hy := c.number_lt
  rw [← hfamily] at hy
  have hcut : c.members = sharing p.family.bits (min c.bits.toNat p.family.bits) c.number := by
    rw [Cidr.members, ← hfamily]
    exact sharing_min (by cases p.family <;> decide) _ _
  have hbits : p.bits.toNat ≤ min c.bits.toNat p.family.bits ↔ p.bits ≤ c.bits := by omega
  have hquot : c.number / 2 ^ (p.family.bits - p.bits.toNat) =
      p.number / 2 ^ (p.family.bits - p.bits.toNat) ↔ SameNetwork p c :=
    (Nat.mul_left_inj (Nat.two_pow_pos _).ne').symm
  rw [hcut, Cidr.members, sharing_subset_iff hp (min_le_right _ _) hx hy, hbits, hquot]

/-- The mask of p on an address. -/
theorem applyMask_network (hp : BitsOk p.family p.bits) (hlen : c.len = lenOf c.family)
    (hfamily : p.family = c.family) : ∃ addr, applyMask c p.bits false = some (c.withAddr addr) ∧
      (c.withAddr addr).number = network p.family.bits p.bits.toNat c.number := by
  rw [hfamily] at hp ⊢
  exact applyMask_spec hlen hp false

theorem memcmp_iff (x y : Mem) (n : ℕ) :
    (List.range n).all (fun i => x i = y i) = true ↔ beValue x n = beValue y n := by
  rw [beValue_inj]
  simp

theorem contains_spec (hp : ObjectOk p) (hlen : c.len = lenOf c.family) :
    ∃ b, contains p c = some b ∧
      (b = true ↔ p.family = c.family ∧ p.bits ≤ c.bits ∧ SameNetwork p c) := by
  obtain ⟨hplen, hbits⟩ := (objectOk_iff p).mp hp
  unfold contains
  split
  next h =>
    obtain ⟨hfamily, hle⟩ := h
    obtain ⟨x, hx, hxn⟩ := applyMask_network hbits hplen rfl
    obtain ⟨y, hy, hyn⟩ := applyMask_network hbits hlen hfamily
    have hfit : 0 ≤ p.len ∧ p.len ≤ sizeofV6 := by
      rw [hplen]
      cases p.family <;> decide
    have hsize : p.len.toNat = p.family.bits / 8 := by
      rw [hplen]
      cases p.family <;> rfl
    refine ⟨_, by rw [hx, hy]; exact if_pos hfit, ?_⟩
    have hleft : beValue x (p.family.bits / 8) = _ := hxn
    have hright : beValue y (c.family.bits / 8) = _ := hyn
    refine (memcmp_iff _ _ _).trans ?_
    show beValue x p.len.toNat = beValue y p.len.toNat ↔ _
    rw [hsize, hleft, hfamily, hright, ← hfamily]
    exact ⟨fun heq => ⟨rfl, hle, heq.symm⟩, fun hsame => hsame.2.2.symm⟩
  next h =>
    exact ⟨false, rfl, iff_of_false Bool.false_ne_true fun hsame => h ⟨hsame.1, hsame.2.1⟩⟩

end

section

variable {p c : Cidr} {family : Family} {addr : Mem} {bits : ℕ}

/-- The running count gives the masks of the bytes. -/
theorem diffBytes_iff (x y : Mem) (bits : ℕ) {i n : ℕ} : diffBytes x y (bits - 8 * i) i n = false ↔
    ∀ j, i ≤ j → j < i + n → x j &&& maskByte bits j = y j &&& maskByte bits j := by
  induction n generalizing i with
  | zero => exact ⟨fun _ j hij hj => absurd hj (not_lt.mpr hij), fun _ => rfl⟩
  | succ n ih =>
    have hmin : (if 8 < bits - 8 * i then 8 else bits - 8 * i) = min (bits - 8 * i) 8 := by
      split <;> omega
    have hmask : (if bits - 8 * i ≠ 0 then (0xFF <<< (8 - min (bits - 8 * i) 8) : ℕ).toUInt8 else 0) =
        maskByte bits i := by
      unfold maskByte
      split
      next => rfl
      next h =>
        rw [not_not.mp h]
        rfl
    have hnext : bits - 8 * i - min (bits - 8 * i) 8 = bits - 8 * (i + 1) := by omega
    rw [diffBytes, hmin, hmask, hnext]
    split
    next hne => exact iff_of_false Bool.noConfusion fun h => hne (h i le_rfl (by omega))
    next heq =>
      rw [ih]
      refine ⟨fun h j hij hj => ?_, fun h j hij hj => h j (by omega) (by omega)⟩
      obtain rfl | hlt := hij.eq_or_lt
      · exact not_not.mp heq
      · exact h j hlt (by omega)

theorem diffAddr_iff (hbits : BitsOk p.family p.bits) (addr : Mem) :
    diffAddr p.family addr p = false ↔ SameNetwork p (routeOf p.family addr bits) := by
  obtain ⟨hge, hle⟩ := hbits
  unfold diffAddr
  cases hfamily : p.family with
  | inet =>
    rw [hfamily] at hle
    dsimp only
    rw [bne_eq_false_iff_eq, SameNetwork, hfamily, number_inet hfamily,
      number_inet (show (routeOf .inet addr bits).family = .inet from rfl)]
    split
    next hne =>
      have hk : (32 - p.bits).toNat < 32 := by omega
      have hrest : Family.inet.bits - p.bits.toNat = (32 - p.bits).toNat := by
        have : Family.inet.bits = 32 := rfl
        omega
      rw [loadWord_eq (m := addr), loadWord_eq (m := p.addr), htonl_and, htonl_and, htonl_inj,
        ← BitVec.toNat_inj, toNat_and_mask hk, toNat_and_mask hk, network, network, hrest]
      rfl
    next h =>
      have hzero (x : BitVec 32) : network Family.inet.bits p.bits.toNat x.toNat = 0 := by
        rw [not_not.mp h]
        show x.toNat / 2 ^ 32 * 2 ^ 32 = 0
        rw [Nat.div_eq_of_lt x.isLt, Nat.zero_mul]
      rw [hzero, hzero, BitVec.and_zero, BitVec.and_zero]
      exact iff_of_true rfl rfl
  | inet6 =>
    rw [hfamily] at hle
    have hr : (p.bits % 256).toNat = p.bits.toNat - 8 * 0 := by
      rw [Int.emod_eq_of_lt hge (hle.trans_lt (by decide))]
      rfl
    have hbytes : (∀ j, 0 ≤ j → j < 0 + 16 → addr j &&& maskByte p.bits.toNat j =
        p.addr j &&& maskByte p.bits.toNat j) ↔ _ :=
      (forall_congr' fun j => by rw [Nat.zero_add]; exact forall_prop_of_true (Nat.zero_le j)).trans
        (show beValue (fun i => addr i &&& maskByte p.bits.toNat i) 16 =
            beValue (fun i => p.addr i &&& maskByte p.bits.toNat i) 16 ↔ _ from beValue_inj).symm
    have hwidth : Family.inet6.bits = 8 * 16 := rfl
    dsimp only
    rw [hr, diffBytes_iff, hbytes, beValue_and_mask, beValue_and_mask, SameNetwork, hfamily,
      number_inet6 hfamily, number_inet6 (show (routeOf .inet6 addr bits).family = .inet6 from rfl),
      network, network, hwidth]
    rfl

theorem diffPrefix_iff (hp : ObjectOk p) (exact : Bool) :
    diffPrefix family (some addr) bits (some ⟨p, exact⟩) = false ↔
      p.family = family ∧ p.bits ≤ bits ∧ SameNetwork p (routeOf family addr bits) ∧
        (exact = true → p.bits = bits) := by
  obtain ⟨-, hbits⟩ := (objectOk_iff p).mp hp
  show (if p.family ≠ family ∨ (bits : ℤ) < p.bits then true else
    if diffAddr family addr p then true else exact && p.bits ≠ bits) = false ↔ _
  split
  next h =>
    refine iff_of_false Bool.true_eq_false_eq_False fun hsame => ?_
    exact h.elim (absurd hsame.1) (not_lt.mpr hsame.2.1)
  next h =>
    rw [not_or, not_not, not_lt] at h
    obtain ⟨rfl, hle⟩ := h
    have hsame := @diffAddr_iff p bits hbits addr
    cases hd : diffAddr p.family addr p with
    | true =>
      rw [hd] at hsame
      exact iff_of_false (by simp) fun h => Bool.noConfusion (hsame.mpr h.2.2.1)
    | false =>
      have hsame := hsame.mp hd
      cases exact <;> simp [hsame, hle]

/-- Both tests ask for the inclusion of the addresses. -/
theorem diffPrefix_inexact (hp : ObjectOk p) :
    diffPrefix family (some addr) bits (some ⟨p, false⟩) = false ↔
      p.family = family ∧ (routeOf family addr bits).members ⊆ p.members := by
  obtain ⟨-, hbits⟩ := (objectOk_iff p).mp hp
  rw [diffPrefix_iff hp]
  refine and_congr_right fun hfamily => ?_
  rw [members_subset_iff hbits (Int.natCast_nonneg bits) hfamily]
  exact and_congr_right fun _ => and_iff_left fun h => Bool.noConfusion h

theorem diffPrefix_exact (hp : ObjectOk p) :
    diffPrefix family (some addr) bits (some ⟨p, true⟩) = false ↔
      p.family = family ∧ p.bits = bits ∧ SameNetwork p (routeOf family addr bits) := by
  rw [diffPrefix_iff hp]
  refine and_congr_right fun _ => ?_
  exact ⟨fun h => ⟨h.2.2 rfl, h.2.1⟩, fun h => ⟨h.1.le, h.2, fun _ => h.1⟩⟩

theorem contains_iff_members (hp : ObjectOk p) (hlen : c.len = lenOf c.family) (hc : 0 ≤ c.bits) :
    ∃ b, contains p c = some b ∧ (b = true ↔ p.family = c.family ∧ c.members ⊆ p.members) := by
  obtain ⟨-, hbits⟩ := (objectOk_iff p).mp hp
  obtain ⟨b, hb, hiff⟩ := contains_spec hp hlen
  refine ⟨b, hb, hiff.trans (and_congr_right fun hfamily => ?_)⟩
  rw [members_subset_iff hbits hc hfamily]

theorem contains_route (hp : ObjectOk p) : contains p (routeOf family addr bits) =
    some (!diffPrefix family (some addr) bits (some ⟨p, false⟩)) := by
  obtain ⟨b, hb, hiff⟩ := contains_iff_members (c := routeOf family addr bits) hp rfl
    (Int.natCast_nonneg bits)
  have hdiff := @diffPrefix_inexact p family addr bits hp
  rw [hb]
  cases hd : diffPrefix family (some addr) bits (some ⟨p, false⟩) with
  | false => rw [hiff.mpr (hdiff.mp hd), Bool.not_false]
  | true =>
    rw [hd] at hdiff
    have hout := mt hdiff.mpr Bool.true_eq_false_eq_False
    rw [Bool.eq_false_iff.mpr (mt hiff.mp hout), Bool.not_true]

end

/-- 10.0.0.0 with a length. -/
def tenNet (bits : ℤ) : Cidr := ⟨fun i => if i = 0 then 10 else 0, sizeofV4, bits, .inet⟩

end Iot7688.LuciIp
