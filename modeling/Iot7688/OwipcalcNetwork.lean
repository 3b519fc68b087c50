import Iot7688.Lib.Prefix
import Iot7688.OwipcalcNumber

/-!
Prefixes as sets of addresses. The masks of IPv4 and the bytes and the partial mask of
IPv6 give the same networks, but for the prefix 0, for which the IPv4 operations shift by
32 bits and contains looks in front of an IPv6 address. A dotted mask is parsed by
counting its bits, wherever they are.
-/
namespace Iot7688.Owipcalc

open Lib

/-- The addresses of the network of an entry. -/
def Cidr.members (a : Cidr) : Set ℕ := sharing a.family.bits a.size.toNat a.number

/-- Contains answers whether the one network is a part of the other. -/
def Answers (h : Host) (a b : Cidr) (s : State) : Prop :=
  ∃ s' yes, Op.contains.run a (some b) h s = some (some (s', yes)) ∧
    (s.quiet = false → s'.out = s.out ++ [.answer yes]) ∧ (yes = true ↔ b.members ⊆ a.members)

/-- The entry that network leaves has the first bits and zeros after them, lies in the
network, and is its own network. -/
def NetworkLaw (h : Host) (a : Cidr) (s : State) : Prop :=
  ∃ n, Op.network.run a none h s = some (some (s.cidrPush n, true)) ∧ n.family = a.family ∧
    n.number ∈ a.members ∧ (∀ i, i < a.family.bits - a.size.toNat → n.number.testBit i = false) ∧
    ∀ s', ∃ n', Op.network.run { n with size := a.size } none h s' =
      some (some (s'.cidrPush n', true)) ∧ n'.number = n.number

/-- A text that is the dotted form of four bytes. -/
structure Dotted (inet : Inet) (text : List Byte) (m : Mem) : Prop where
  parsed : ∃ m', inet.pton4 text = some m' ∧ ∀ i, i < 4 → m' i = m i
  dots : dot ∈ text
  plain : slash ∉ text
  short : text.length ≤ 15

/-- Ones in front, and zeros after them. -/
def Contiguous (mask : Mem) : Prop :=
  ∃ k, k ≤ 32 ∧ (loadWord .big mask).toNat = 2 ^ 32 - 2 ^ (32 - k)

/-- An address, a slash, and what follows. -/
def withSlash (text rest : List Byte) : List Byte := text ++ slash :: rest

/-- The laws of an IPv4 network, and of a dotted mask behind its address. -/
structure Laws4 (inet : Inet) (h : Host) (a : Cidr) (s : State) (text maskText : List Byte)
    (mask : Mem) : Prop where
  network : NetworkLaw h a s
  broadcast : ∃ n m, Op.network.run a none h s = some (some (s.cidrPush n, true)) ∧
    Op.broadcast.run a none h s = some (some (s.cidrPush m, true)) ∧
    m.number = n.number + 2 ^ (32 - a.size.toNat) - 1
  netmask : ∃ m, Op.netmask.run a none h s = some (some (s.cidrPush m, true)) ∧
    (∀ i, i < 32 → m.number.testBit (31 - i) = decide (i < a.size.toNat)) ∧
    ∀ t, Dotted inet t m.addr → ∃ c, cidrParse4 inet h (withSlash text t) = some c ∧
      c.size = a.size ∧ c.number = a.number
  rejects : ¬Contiguous mask → cidrParse4 inet h (withSlash text maskText) = none

section

variable {h : Host} {a b : Cidr} {s : State}

/-- The mask for the bits of an entry's size. -/
def maskWord (p : ℕ) : BitVec 32 := ~~~(1#32 <<< (32 - p) - 1#32)

def lowWord (p : ℕ) : BitVec 32 := 1#32 <<< (32 - p) - 1#32

theorem shl1_sized {p : BitVec 32} (hp : 1 ≤ p.toNat ∧ p.toNat ≤ 32) :
    shl1 (32 - p) = some (1#32 <<< (32 - p.toNat)) := by
  rw [shl1_size, if_pos hp]

/-- The entry with another IPv4 address and the size of a host. -/
def Cidr.host (a : Cidr) (x : BitVec 32) : Cidr := { a.setSAddr .big x with size := 32 }

theorem number_host (ha : a.family = .inet) (x : BitVec 32) : (a.host x).number = x.toNat :=
  number_setSAddr ha x

theorem cidrNetwork4_eq (hp : 1 ≤ a.size.toNat ∧ a.size.toNat ≤ 32) : cidrNetwork4 h a s =
    some (s.cidrPush (a.host (a.sAddr .big &&& maskWord a.size.toNat)), true) := by
  rw [cidrNetwork4_host, cidrNetwork4, shl1_sized hp]
  rfl

theorem cidrBroadcast4_eq (hp : 1 ≤ a.size.toNat ∧ a.size.toNat ≤ 32) : cidrBroadcast4 h a s =
    some (s.cidrPush (a.host (a.sAddr .big ||| lowWord a.size.toNat)), true) := by
  rw [cidrBroadcast4_host, cidrBroadcast4, shl1_sized hp]
  rfl

theorem cidrNetmask4_eq (hp : 1 ≤ a.size.toNat ∧ a.size.toNat ≤ 32) : cidrNetmask4 h a s =
    some (s.cidrPush (a.host (maskWord a.size.toNat)), true) := by
  rw [cidrNetmask4_host, cidrNetmask4, shl1_sized hp]
  rfl

theorem cidrContains4_eq (hp : 1 ≤ a.size.toNat ∧ a.size.toNat ≤ 32) : cidrContains4 h a b s =
    if a.size ≤ b.size ∧
        a.sAddr .big &&& maskWord a.size.toNat = b.sAddr .big &&& maskWord a.size.toNat then
      some (s.qprintf (.answer true), true)
    else some (s.qprintf (.answer false), false) := by
  rw [cidrContains4_host, cidrContains4, shl1_sized hp, Option.map_some]
  exact apply_ite some _ _ _

theorem undefined4 (f : BitVec 32 → State × Bool) (h0 : a.size.toNat = 0) :
    (shl1 (32 - a.size)).map f = none := by
  rw [shl1_size, if_neg (by omega)]
  rfl

/-- Equal under the mask is equal in the first bits. -/
theorem and_mask_eq_iff {p : ℕ} (hp : 1 ≤ p) (x y : BitVec 32) :
    x &&& maskWord p = y &&& maskWord p ↔ x.toNat / 2 ^ (32 - p) = y.toNat / 2 ^ (32 - p) := by
  unfold maskWord
  rw [← BitVec.toNat_inj, toNat_and_mask (by omega), toNat_and_mask (by omega)]
  exact Nat.mul_left_inj (Nat.two_pow_pos _).ne'

theorem members_subset_iff (hfamily : b.family = a.family) (ha : EntryOk a) (hb : EntryOk b) :
    b.members ⊆ a.members ↔ a.size ≤ b.size ∧ b.number / 2 ^ (a.family.bits - a.size.toNat) =
      a.number / 2 ^ (a.family.bits - a.size.toNat) := by
  have hnumber := b.number_lt
  unfold EntryOk at hb
  unfold Cidr.members
  rw [hfamily] at hb hnumber ⊢
  rw [sharing_subset_iff ha hb a.number_lt hnumber, BitVec.le_def]

theorem qprintf_answer (s : State) (yes : Bool) (hquiet : s.quiet = false) :
    (s.qprintf (.answer yes)).out = s.out ++ [.answer yes] := by
  unfold State.qprintf
  rw [hquiet]
  rfl

/-- An answer by a test that says whether the one network is a part of the other. -/
theorem answers_of_ite {test : Prop} [Decidable test] {t : State} (hquiet : t.quiet = s.quiet)
    (hout : t.out = s.out) (htest : test ↔ b.members ⊆ a.members)
    (hrun : Op.contains.run a (some b) h s = some (if test then some (t.qprintf (.answer true), true)
      else some (t.qprintf (.answer false), false))) : Answers h a b s := by
  split at hrun
  next hyes =>
    refine ⟨_, true, hrun, fun hq => ?_, iff_of_true rfl (htest.mp hyes)⟩
    rw [← hout]
    exact qprintf_answer t true (hquiet.trans hq)
  next hno =>
    refine ⟨_, false, hrun, fun hq => ?_, iff_of_false Bool.false_ne_true fun hsub => hno (htest.mpr hsub)⟩
    rw [← hout]
    exact qprintf_answer t false (hquiet.trans hq)

theorem answers_inet (hfa : a.family = .inet) (hfb : b.family = .inet) (ha : EntryOk a)
    (hb : EntryOk b) : Answers h a b s ↔ a.size.toNat ≠ 0 := by
  have hle := ha
  unfold EntryOk at hle
  rw [hfa] at hle
  have hle : a.size.toNat ≤ 32 := hle
  constructor
  · rintro ⟨s', yes, hrun, -⟩ h0
    rw [run_inet hfa rfl, cidrContains4, undefined4 _ h0] at hrun
    cases Option.some.inj hrun
  · intro hpos
    refine answers_of_ite rfl rfl ?_ ((run_inet hfa rfl).trans
      (congrArg some (cidrContains4_eq ⟨by omega, hle⟩)))
    rw [members_subset_iff (hfb.trans hfa.symm) ha hb, hfa, and_mask_eq_iff (by omega),
      ← number_inet hfa, ← number_inet hfb]
    exact and_congr_right fun _ => eq_comm

/-- The mask for the last byte cuts its last bits off. -/
theorem toNat_and_byteMask (x : Byte) (rest : BitVec 32) :
    (x &&& byteMask rest).toNat = x.toNat / 2 ^ (rest.toNat % 8) * 2 ^ (rest.toNat % 8) := by
  have hk := Nat.mod_lt rest.toNat (show 8 > 0 by decide)
  unfold byteMask
  generalize rest.toNat % 8 = k at hk ⊢
  revert x
  apply forall_byte
  obtain rfl | rfl | rfl | rfl | rfl | rfl | rfl | rfl : k = 0 ∨ k = 1 ∨ k = 2 ∨ k = 3 ∨ k = 4 ∨
    k = 5 ∨ k = 6 ∨ k = 7 := by omega
  all_goals decide +kernel

theorem and_byteMask_eq_iff (x y : Byte) (rest : BitVec 32) :
    x &&& byteMask rest = y &&& byteMask rest ↔
      x.toNat / 2 ^ (rest.toNat % 8) = y.toNat / 2 ^ (rest.toNat % 8) := by
  rw [← UInt8.toNat_inj, toNat_and_byteMask, toNat_and_byteMask]
  exact Nat.mul_left_inj (Nat.two_pow_pos _).ne'

/-- The first bits of an IPv6 address by bytes and bits of the last one. -/
theorem number_div6 (ha : a.family = .inet6) {i k : ℕ} (hi : i ≤ 15) :
    a.number / 2 ^ (8 * i + k) = beValue a.addr (15 - i + 1) / 2 ^ k := by
  have hfront := beValue_div a.addr (show 15 - i + 1 ≤ 16 by omega)
  have hplace : 16 - (15 - i + 1) = i := by omega
  rw [hplace] at hfront
  rw [number_inet6 ha, Nat.pow_add, ← Nat.div_div_eq_div_mul, hfront]

theorem all_front_iff (x y : Mem) {j : ℕ} (hj : j ≤ 15) :
    (j = 15 ∨ ((List.range (15 - j)).all fun k => x k = y k) = true) ↔ ∀ i, i < 15 - j → y i = x i := by
  have hall : ((List.range (15 - j)).all fun k => x k = y k) = true ↔ ∀ i, i < 15 - j → y i = x i := by
    simp only [List.all_eq_true, List.mem_range, decide_eq_true_eq]
    exact forall₂_congr fun i _ => eq_comm
  rw [hall]
  refine ⟨fun h => ?_, .inr⟩
  rcases h with rfl | h
  · exact fun i hi => absurd hi (Nat.not_lt_zero i)
  · exact h

theorem answers_inet6 (hfa : a.family = .inet6) (hfb : b.family = .inet6) (ha : EntryOk a)
    (hb : EntryOk b) : Answers h a b s ↔ a.size.toNat ≠ 0 := by
  have hle := ha
  unfold EntryOk at hle
  rw [hfa] at hle
  have hle : a.size.toNat ≤ 128 := hle
  have hrest := rest_toNat hle
  have hrun : Op.contains.run a (some b) h s = some (cidrContains6 h a b s) := run_inet6 hfa rfl
  unfold cidrContains6 at hrun
  dsimp only at hrun
  constructor
  · rintro ⟨s', yes, hrun', -⟩ h0
    rw [hrun', if_pos (by omega)] at hrun
    cases Option.some.inj hrun
  · intro hpos
    have hbits : Family.inet6.bits = 128 := rfl
    have hindex : (128 - a.size).toNat / 8 % 2 ^ 8 = (128 - a.size).toNat / 8 := by omega
    have hj : (128 - a.size).toNat / 8 ≤ 15 := by omega
    have hsplit : 128 - a.size.toNat = 8 * ((128 - a.size).toNat / 8) + (128 - a.size).toNat % 8 := by
      omega
    rw [hindex, if_neg (not_lt.mpr hj)] at hrun
    refine answers_of_ite (t := s.cidrPush a) rfl rfl ?_ hrun
    rw [members_subset_iff (hfb.trans hfa.symm) ha hb, hfa, hbits, hsplit, number_div6 hfa hj,
      number_div6 hfb hj, beValue_succ_div_inj (by omega), and_byteMask_eq_iff, all_front_iff _ _ hj]
    exact and_congr_right fun _ => (and_congr_left fun _ => eq_comm).trans and_comm

/-- Contains is inclusion, but for a base with the prefix 0. -/
theorem contains_iff (hfamily : b.family = a.family) (ha : EntryOk a) (hb : EntryOk b) :
    Answers h a b s ↔ a.size.toNat ≠ 0 := by
  cases hfa : a.family with
  | inet => exact answers_inet hfa (hfamily.trans hfa) ha hb
  | inet6 => exact answers_inet6 hfa (hfamily.trans hfa) ha hb

theorem contains_iff_host : Answers .little zeroEntry (sizeEntry 128) noState ↔
    zeroEntry.size.toNat ≠ 0 :=
  contains_iff rfl (show 128 ≤ 128 by decide) (show 128 ≤ 128 by decide)

/-- Contains looks in front of the address ::/0. -/
theorem not_answers_zero : ¬Answers .little (sizeEntry 0) zeroEntry noState := by
  rintro ⟨s', yes, hrun, -⟩
  have hnone : Op.contains.run (sizeEntry 0) (some zeroEntry) .little noState = some none := rfl
  cases Option.some.inj (hnone.symm.trans hrun)

theorem run_unary_inet {op : Op} {f : Unary} (ha : a.family = .inet) (hf : op.f4a1 = some f) :
    op.run a none h s = some (f h a s) := by
  unfold Op.run Op.a1
  rw [ha, if_pos rfl, hf]
  rfl

theorem run_unary_inet6 {op : Op} {f : Unary} (ha : a.family = .inet6) (hf : op.f6a1 = some f) :
    op.run a none h s = some (f h a s) := by
  unfold Op.run Op.a1
  rw [ha, if_neg (by decide), hf]
  rfl

theorem number_addr6 (ha : a.family = .inet6) {m : Mem} {v : ℕ} (hm : beValue m 16 = v) :
    ({ a with addr := m } : Cidr).number = v := by
  have hvalue : ({ a with addr := m } : Cidr).number = beValue m 16 := number_withBytes ha (m, 0)
  rw [hvalue, hm]

/-- The bytes behind the prefix are cleared, and the last bits of the byte it ends in. -/
theorem cidrNetwork6_eq (ha : a.family = .inet6) (hle : a.size.toNat ≤ 128) :
    ∃ n, cidrNetwork6 h a s = some (s.cidrPush n, true) ∧ n.family = a.family ∧
      n.number = network 128 a.size.toNat a.number := by
  have hrest := rest_toNat hle
  unfold cidrNetwork6 network
  dsimp only
  rw [if_neg (by omega), ← hrest, number_inet6 ha]
  by_cases hwhole : (128 - a.size).toNat % 8 = 0
  · have hcut := beValue_cut a.addr (show 16 - (128 - a.size).toNat / 8 ≤ 16 by omega)
    have hplace : 8 * (16 - (16 - (128 - a.size).toNat / 8)) = (128 - a.size).toNat := by omega
    rw [hplace] at hcut
    rw [if_neg (not_not.mpr hwhole)]
    exact ⟨_, rfl, rfl, number_addr6 ha hcut⟩
  · have hcut := beValue_cut_last a.addr (show 15 - (128 - a.size).toNat / 8 + 1 ≤ 16 by omega)
      (show (128 - a.size).toNat % 8 ≤ 8 by omega)
      (toNat_and_byteMask (a.addr (15 - (128 - a.size).toNat / 8)) (128 - a.size))
    have hplace : 8 * (16 - (15 - (128 - a.size).toNat / 8 + 1)) + (128 - a.size).toNat % 8 =
        (128 - a.size).toNat := by omega
    have hfront : 16 - (128 - a.size).toNat / 8 = 15 - (128 - a.size).toNat / 8 + 1 := by omega
    have hkept : ¬15 - (128 - a.size).toNat / 8 + 1 ≤ 15 - (128 - a.size).toNat / 8 := by omega
    rw [hplace] at hcut
    rw [if_pos hwhole, hfront, if_neg hkept]
    exact ⟨_, rfl, rfl, number_addr6 ha hcut⟩

/-- What network leaves, but for the prefix 0 of IPv4. -/
theorem network_run (ha : EntryOk a) (hpos : a.family = .inet → 1 ≤ a.size.toNat) :
    ∃ n, Op.network.run a none h s = some (some (s.cidrPush n, true)) ∧ n.family = a.family ∧
      n.number = network a.family.bits a.size.toNat a.number := by
  unfold EntryOk at ha
  cases hfamily : a.family with
  | inet =>
    rw [hfamily] at ha
    have hp := hpos hfamily
    refine ⟨_, (run_unary_inet hfamily rfl).trans (congrArg some (cidrNetwork4_eq ⟨hp, ha⟩)), hfamily, ?_⟩
    unfold maskWord
    rw [number_host hfamily, toNat_and_mask (by omega), number_inet hfamily]
    rfl
  | inet6 =>
    rw [hfamily] at ha
    obtain ⟨n, hrun, hn, hvalue⟩ := cidrNetwork6_eq (h := h) (s := s) hfamily ha
    exact ⟨n, (run_unary_inet6 hfamily rfl).trans (congrArg some hrun), hn.trans hfamily, hvalue⟩

theorem networkLaw_of_run (ha : EntryOk a) (hpos : a.family = .inet → 1 ≤ a.size.toNat) :
    NetworkLaw h a s := by
  obtain ⟨n, hrun, hfamily, hvalue⟩ := network_run (h := h) (s := s) ha hpos
  refine ⟨n, hrun, hfamily, ?_, fun i hi => ?_, fun s' => ?_⟩
  · rw [hvalue]
    exact network_mem ha a.number_lt
  · rw [hvalue]
    exact network_zeros hi
  · have hok : EntryOk { n with size := a.size } := by
      show a.size.toNat ≤ n.family.bits
      rw [hfamily]
      exact ha
    obtain ⟨n', hrun', -, hvalue'⟩ :=
      network_run (h := h) (s := s') hok fun hinet => hpos (hfamily.symm.trans hinet)
    refine ⟨n', hrun', hvalue'.trans ?_⟩
    show network n.family.bits a.size.toNat n.number = n.number
    rw [hfamily, hvalue, network_network]

theorem testBit_maskWord {p i : ℕ} (hp : 1 ≤ p) (hi : i < 32) :
    (maskWord p).toNat.testBit (31 - i) = decide (i < p) := by
  have hbit := getLsbD_mask (show 32 - p < 32 by omega) (show 31 - i < 32 by omega)
  unfold maskWord
  refine hbit.trans (decide_eq_decide.mpr ?_)
  omega

/-- The bits of a mask are counted again. -/
theorem countBits_maskWord {p : ℕ} (hp : p ≤ 32) : countBits 32 (maskWord p) = p := by
  have hall : ((List.range 33).all fun p => countBits 32 (maskWord p) = p) = true := by
    decide +kernel
  simpa using List.all_eq_true.mp hall p (List.mem_range.mpr (Nat.lt_succ_of_le hp))

theorem loadWord_congr {m m' : Mem} (heq : ∀ i, i < 4 → m i = m' i) : loadWord h m = loadWord h m' := by
  cases h <;> simp only [loadWord, heq 0 (by decide), heq 1 (by decide), heq 2 (by decide),
    heq 3 (by decide)]

end

section

variable {inet : Inet} {h : Host} {a : Cidr} {s : State} {text maskText : List Byte} {m mask : Mem}

theorem splitSlash_withSlash (hplain : slash ∉ text) (rest : List Byte) :
    splitSlash (withSlash text rest) = (text, some rest) := by
  have htake : (withSlash text rest).takeWhile (fun b => b ≠ slash) = text := by
    have hall : ∀ b ∈ text, decide (b ≠ slash) = true := fun b hb =>
      decide_eq_true fun heq => hplain (heq ▸ hb)
    rw [withSlash, List.takeWhile_append_of_pos hall, List.takeWhile_cons_of_neg (by decide),
      List.append_nil]
  have hdrop : (withSlash text rest).drop text.length = slash :: rest := List.drop_left
  unfold splitSlash
  dsimp only
  rw [htake, hdrop]

/-- A dotted mask counts with all its bits, wherever they are. -/
theorem cidrParse4_dotted (htext : Dotted inet text m) (hmask : Dotted inet maskText mask) :
    ∃ m', (∀ i, i < 4 → m' i = m i) ∧ cidrParse4 inet h (withSlash text maskText) =
      some ⟨.inet, BitVec.ofNat 32 (countBits 32 (loadWord .big mask)), m'⟩ := by
  obtain ⟨m', htextEq, hm⟩ := htext.parsed
  obtain ⟨mask', hmaskEq, hmask'⟩ := hmask.parsed
  have hlength : ¬33 ≤ (withSlash text maskText).length := by
    have htextShort := htext.short
    have hmaskShort := hmask.short
    rw [withSlash, List.length_append, List.length_cons]
    omega
  have hsome : text ≠ [] := List.ne_nil_of_mem htext.dots
  refine ⟨m', hm, ?_⟩
  rw [cidrParse4, if_neg hlength]
  simp only [splitSlash_withSlash htext.plain, hmask.dots, hsome, if_true, false_and, if_false, htextEq,
    hmaskEq, Option.map_some]
  rw [countBits_loadWord, loadWord_congr hmask']

/-- The mask of an entry, behind its address, gives the entry again. -/
theorem netmask_parsed (ha : a.family = .inet) (hp : a.size.toNat ≤ 32)
    (htext : Dotted inet text a.addr)
    (hmask : Dotted inet maskText (a.host (maskWord a.size.toNat)).addr) :
    ∃ c, cidrParse4 inet h (withSlash text maskText) = some c ∧ c.size = a.size ∧
      c.number = a.number := by
  obtain ⟨m', hm, hparse⟩ := cidrParse4_dotted (h := h) htext hmask
  have hword : loadWord .big (a.host (maskWord a.size.toNat)).addr = maskWord a.size.toNat :=
    loadWord_storeWord _ _
  refine ⟨_, hparse, ?_, ?_⟩
  · rw [hword, countBits_maskWord hp]
    exact (BitVec.ofNat_toNat 32 a.size).trans (BitVec.setWidth_eq a.size)
  · rw [number_inet rfl, number_inet ha]
    exact congrArg BitVec.toNat (loadWord_congr (h := .big) hm)

theorem laws4_iff (hinet : a.family = .inet) (ha : EntryOk a) (htext : Dotted inet text a.addr)
    (hmask : Dotted inet maskText mask) :
    Laws4 inet h a s text maskText mask ↔ 1 ≤ a.size.toNat ∧ Contiguous mask := by
  have hle := ha
  unfold EntryOk at hle
  rw [hinet] at hle
  have hle : a.size.toNat ≤ 32 := hle
  constructor
  · intro hlaws
    constructor
    · by_contra hzero
      obtain ⟨n, hrun, -⟩ := hlaws.network
      rw [run_unary_inet hinet rfl, cidrNetwork4, undefined4 _ (by omega)] at hrun
      cases Option.some.inj hrun
    · by_contra hno
      obtain ⟨m', -, hparse⟩ := cidrParse4_dotted (h := h) htext hmask
      cases (hlaws.rejects hno).symm.trans hparse
  · rintro ⟨hpos, hones⟩
    have hsized : 1 ≤ a.size.toNat ∧ a.size.toNat ≤ 32 := ⟨hpos, hle⟩
    refine ⟨networkLaw_of_run ha fun _ => hpos, ?_, ?_, fun hno => absurd hones hno⟩
    · refine ⟨_, _, (run_unary_inet hinet rfl).trans (congrArg some (cidrNetwork4_eq hsized)),
        (run_unary_inet hinet rfl).trans (congrArg some (cidrBroadcast4_eq hsized)), ?_⟩
      have hpow := Nat.two_pow_pos (32 - a.size.toNat)
      unfold maskWord lowWord
      rw [number_host hinet, number_host hinet, toNat_and_mask (by omega), toNat_or_low (by omega)]
      omega
    · refine ⟨_, (run_unary_inet hinet rfl).trans (congrArg some (cidrNetmask4_eq hsized)), fun i hi => ?_,
        fun t ht => netmask_parsed hinet hle htext ht⟩
      rw [number_host hinet]
      exact testBit_maskWord hpos hi

/-- The laws hold but for the prefix 0 of IPv4 and masks that are not contiguous. -/
theorem network_laws_iff (ha : EntryOk a) :
    (a.family = .inet6 → NetworkLaw h a s) ∧
    (a.family = .inet → ∀ text maskText mask, Dotted inet text a.addr → Dotted inet maskText mask →
      (Laws4 inet h a s text maskText mask ↔ 1 ≤ a.size.toNat ∧ Contiguous mask)) := by
  refine ⟨fun hinet6 => networkLaw_of_run ha fun hinet => ?_, fun hinet text maskText mask => ?_⟩
  · cases hinet.symm.trans hinet6
  · exact laws4_iff hinet ha

end

/-- inet_pton where it is asked for 10.0.0.255 and a mask with a hole. -/
def maskNet : Inet where
  pton4 s := if s = bytesOf "10.0.0.255" then some fun i => [10, 0, 0, 255].getD i 0
    else if s = bytesOf "255.0.255.0" then some fun i => [255, 0, 255, 0].getD i 0
    else none
  pton6 _ := none

def tenEntry : Cidr := ⟨.inet, 24, fun i => [10, 0, 0, 255].getD i 0⟩

def holedMask : Mem := fun i => [255, 0, 255, 0].getD i 0

theorem dotted_ten : Dotted maskNet (bytesOf "10.0.0.255") tenEntry.addr :=
  ⟨⟨_, rfl, fun _ _ => rfl⟩, by decide, by decide, by decide⟩

theorem dotted_holed : Dotted maskNet (bytesOf "255.0.255.0") holedMask :=
  ⟨⟨_, rfl, fun _ _ => rfl⟩, by decide, by decide, by decide⟩

theorem network_laws_iff_ten : (tenEntry.family = .inet6 → NetworkLaw .little tenEntry noState) ∧
    (Laws4 maskNet .little tenEntry noState (bytesOf "10.0.0.255") (bytesOf "255.0.255.0") holedMask ↔
      1 ≤ tenEntry.size.toNat ∧ Contiguous holedMask) :=
  have hlaws := network_laws_iff (a := tenEntry) (show 24 ≤ 32 by decide)
  ⟨hlaws.1, hlaws.2 rfl _ _ _ dotted_ten dotted_holed⟩

theorem not_contiguous_holed : ¬Contiguous holedMask := by
  rintro ⟨k, hk, hones⟩
  have hall : ((List.range 33).all fun k =>
      (loadWord .big holedMask).toNat ≠ 2 ^ 32 - 2 ^ (32 - k)) = true := by decide +kernel
  exact of_decide_eq_true (List.all_eq_true.mp hall k (List.mem_range.mpr (Nat.lt_succ_of_le hk))) hones

/-- The mask 255.0.255.0 is taken for the prefix 16. -/
theorem holed_mask_accepted : EntryOk tenEntry ∧
    Dotted maskNet (bytesOf "10.0.0.255") tenEntry.addr ∧
    Dotted maskNet (bytesOf "255.0.255.0") holedMask ∧
    (∃ c, cidrParse4 maskNet .little (withSlash (bytesOf "10.0.0.255") (bytesOf "255.0.255.0")) = some c ∧
      c.size = 16) ∧
    ¬Laws4 maskNet .little tenEntry noState (bytesOf "10.0.0.255") (bytesOf "255.0.255.0")
      holedMask := by
  refine ⟨show 24 ≤ 32 by decide, dotted_ten, dotted_holed, ⟨_, rfl, by decide +kernel⟩, fun hlaws => ?_⟩
  cases (hlaws.rejects not_contiguous_holed).symm.trans rfl

end Iot7688.Owipcalc
