import Iot7688.LuciIpNumber

/-!
The addresses that luci.ip computes from an object: its network, its first and last host
and its broadcast address, and sums and differences on a host of either byte order. The hosts
of IPv4 leave out the network and the broadcast address, also where the prefix has no other
ones. The order of the host shows in one place: the number that becomes an IPv6 address.
-/
namespace Iot7688.LuciIp

open Lib

/-- The order of the addresses of one family. -/
def AddrLe (a b : Cidr) : Prop := a.family = b.family ∧ a.number ≤ b.number

/-- The last address of an object. -/
def Cidr.last (c : Cidr) : ℕ := network c.family.bits c.bits.toNat c.number + (2 ^ (c.family.bits - c.bits.toNat) - 1)

/-- What a pool between the first and the last host relies on. -/
def HostRange (env : Env) (heap : List Cidr) (i : ℕ) (o : Cidr) : Prop :=
  ∃ net low high,
    cidrNetwork env heap [.inl (.object i)] = .returns heap (some net) ∧
    cidrMinhost env heap [.inl (.object i)] = .returns heap (some low) ∧
    cidrMaxhost env heap [.inl (.object i)] = .returns heap (some high) ∧
    AddrLe net low ∧ AddrLe low high ∧ contains o low = some true ∧ contains o high = some true ∧
    (o.family = .inet → ∃ br,
      cidrBroadcast env heap [.inl (.object i)] = .returns heap (some br) ∧ AddrLe high br) ∧
    (o.bits < o.family.bits - 1 → low.number = net.number + 1)

theorem succBytes_spec (x : Mem) {i : ℕ} (hi : i ≤ 16) : (succBytes x i).2 ≤ 1 ∧
    lastValue (succBytes x i).1 16 i + (succBytes x i).2 * 2 ^ (8 * i) = lastValue x 16 i + 1 := by
  induction i with
  | zero => exact ⟨le_rfl, rfl⟩
  | succ i ih =>
    obtain ⟨hle, hsum⟩ := ih (Nat.le_of_succ_le hi)
    have hbyte : (x (15 - i) + (succBytes x i).2.toUInt8).toNat +
        (if 255 < (x (15 - i)).toNat + (succBytes x i).2 then 1 else 0) * 2 ^ 8 =
          (x (15 - i)).toNat + (succBytes x i).2 := by
      have hlt := (x (15 - i)).toNat_lt
      have hcarry : ((succBytes x i).2.toUInt8).toNat = (succBytes x i).2 :=
        Nat.mod_eq_of_lt (by omega)
      rw [UInt8.toNat_add, hcarry]
      split <;> omega
    refine ⟨by rw [succBytes]; dsimp only; split <;> decide, ?_⟩
    refine (carry_step (w := 16) hi hbyte hsum).trans ?_
    rw [lastValue, Nat.add_assoc]

section

variable {r : Cidr}

theorem minhost_number (hroom : r.bits < r.family.bits → r.number + 1 < 2 ^ r.family.bits) :
    (minhost r).number = r.number + if r.bits < r.family.bits then 1 else 0 := by
  unfold minhost
  cases hfamily : r.family with
  | inet =>
    rw [hfamily] at hroom
    dsimp only
    split
    next hfew =>
      have hfew : r.bits < Family.inet.bits := hfew
      have hroom : r.number + 1 < 2 ^ 32 := hroom hfew
      rw [if_pos hfew, ntohl_loadWord, storeWord_htonl, number_inet hfamily]
      rw [number_inet hfamily] at hroom
      rw [number_inet (c := ⟨_, _, _, .inet⟩) rfl, loadWord_storeWord, BitVec.toNat_add]
      exact Nat.mod_eq_of_lt hroom
    next h =>
      rw [if_neg (show ¬r.bits < Family.inet.bits from h)]
      rfl
  | inet6 =>
    rw [hfamily] at hroom
    dsimp only
    split
    next hfew =>
      have hfew : r.bits < Family.inet6.bits := hfew
      have hroom : r.number + 1 < 2 ^ 128 := hroom hfew
      rw [if_pos hfew, number_inet6 hfamily]
      rw [number_inet6 hfamily] at hroom
      obtain ⟨hle, hsum⟩ := succBytes_spec r.addr (le_refl 16)
      rw [lastValue_self, lastValue_self] at hsum
      rw [number_inet6 (c := ⟨_, _, _, .inet6⟩) rfl]
      show beValue (succBytes r.addr 16).1 16 = _
      omega
    next h =>
      rw [if_neg (show ¬r.bits < Family.inet6.bits from h)]
      rfl

theorem maxhost_number (hroom : r.bits < r.family.bits → 1 ≤ r.number) : (maxhost r).number =
    r.number - if r.family = .inet ∧ r.bits < r.family.bits then 1 else 0 := by
  unfold maxhost
  cases hfamily : r.family with
  | inet =>
    rw [hfamily] at hroom
    dsimp only
    split
    next hfew =>
      have hfew : r.bits < Family.inet.bits := hfew
      have hroom := hroom hfew
      rw [if_pos ⟨rfl, hfew⟩, ntohl_loadWord, storeWord_htonl, number_inet hfamily]
      rw [number_inet hfamily] at hroom
      rw [number_inet (c := ⟨_, _, _, .inet⟩) rfl, loadWord_storeWord]
      exact BitVec.toNat_sub_of_le (BitVec.le_def.mpr hroom)
    next h =>
      have hout : ¬(Family.inet = .inet ∧ r.bits < Family.inet.bits) := fun hfew => h hfew.2
      rw [if_neg hout]
      rfl
  | inet6 =>
    have hout : ¬(Family.inet6 = .inet ∧ r.bits < Family.inet6.bits) :=
      fun hfew => Family.noConfusion hfew.1
    dsimp only
    rw [if_neg hout, number_inet6 hfamily, Nat.sub_zero]
    exact number_inet6 (c := ⟨_, _, _, .inet6⟩) rfl

theorem minhost_bits (hr : BitsOk r.family r.bits) :
    (minhost r).family = r.family ∧ (minhost r).bits = r.family.bits := by
  unfold minhost
  obtain ⟨-, hle⟩ := hr
  split
  next hfamily =>
    rw [hfamily] at hle ⊢
    split
    next => exact ⟨rfl, rfl⟩
    next h => exact ⟨hfamily, le_antisymm hle (not_lt.mp h)⟩
  next hfamily =>
    rw [hfamily] at hle ⊢
    split
    next => exact ⟨rfl, rfl⟩
    next h => exact ⟨hfamily, le_antisymm hle (not_lt.mp h)⟩

theorem maxhost_bits (hr : BitsOk r.family r.bits) :
    (maxhost r).family = r.family ∧ (maxhost r).bits = r.family.bits := by
  unfold maxhost
  obtain ⟨-, hle⟩ := hr
  split
  next hfamily => exact ⟨rfl, by rw [hfamily]; rfl⟩
  next hfamily =>
    rw [hfamily] at hle ⊢
    split
    next => exact ⟨rfl, rfl⟩
    next h => exact ⟨hfamily, le_antisymm hle (not_lt.mp h)⟩

end

section

variable {o : Cidr}

/-- The mask of an object on itself. -/
theorem masked_self (ho : ObjectOk o) (inv : Bool) : ∃ addr,
    applyMask o o.bits inv = some (o.withAddr addr) ∧
      (o.withAddr addr).number = if inv then o.last else network o.family.bits o.bits.toNat o.number := by
  obtain ⟨hlen, hbits⟩ := (objectOk_iff o).mp ho
  obtain ⟨addr, hrun, hnumber⟩ := applyMask_spec hlen hbits inv
  refine ⟨addr, hrun, hnumber.trans ?_⟩
  cases inv <;> rfl

theorem contains_host (ho : ObjectOk o) {c : Cidr} {d : ℕ} (hlen : c.len = lenOf c.family)
    (hfamily : c.family = o.family) (hbits : c.bits = o.family.bits)
    (hd : d < 2 ^ (o.family.bits - o.bits.toNat))
    (hnumber : c.number = network o.family.bits o.bits.toNat o.number + d) :
    contains o c = some true := by
  obtain ⟨-, -, hle⟩ := (objectOk_iff o).mp ho
  obtain ⟨b, hb, hiff⟩ := contains_spec ho hlen
  have hsame : SameNetwork o c := by rw [SameNetwork, hnumber, network_add _ _ hd]
  rw [hb, hiff.mpr ⟨hfamily.symm, hbits ▸ hle, hsame⟩]

variable {env : Env} {heap : List Cidr} {i : ℕ}

theorem checkcidr_object (hi : heap[i]? = some o) :
    checkcidr env heap [.inl (.object i)] 1 none = some ⟨o, some i, [.inl (.object i)]⟩ :=
  congrArg (Option.map _) hi

theorem withMask_object (hi : heap[i]? = some o) (f : Operand → ℤ → Ret) :
    withMask env heap [.inl (.object i)] f = f ⟨o, some i, [.inl (.object i)]⟩ o.bits := by
  rw [withMask, checkcidr_object hi]
  rfl

theorem cidrNetwork_object (hi : heap[i]? = some o) (ho : ObjectOk o) : ∃ net,
    cidrNetwork env heap [.inl (.object i)] = .returns heap (some net) ∧ net.family = o.family ∧
      net.number = network o.family.bits o.bits.toNat o.number := by
  obtain ⟨hlen, hbits⟩ := (objectOk_iff o).mp ho
  obtain ⟨addr, hrun, hnumber⟩ :=
    applyMask_spec (c := { o with bits := hostBits o }) hlen hbits false
  refine ⟨Cidr.withAddr { o with bits := hostBits o } addr, ?_, rfl, hnumber⟩
  rw [cidrNetwork, withMask_object hi, hrun]
  rfl

theorem cidrBroadcast_object (hi : heap[i]? = some o) (ho : ObjectOk o) (hfamily : o.family = .inet) :
    ∃ br, cidrBroadcast env heap [.inl (.object i)] = .returns heap (some br) ∧
      br.family = o.family ∧ br.number = o.last := by
  obtain ⟨hlen, hbits⟩ := (objectOk_iff o).mp ho
  obtain ⟨addr, hrun, hnumber⟩ :=
    applyMask_spec (c := { o with bits := hostBits o }) hlen hbits true
  have hout : ¬o.family = .inet6 := by
    rw [hfamily]
    decide
  refine ⟨Cidr.withAddr { o with bits := hostBits o } addr, ?_, rfl, hnumber⟩
  rw [cidrBroadcast, withMask_object hi, if_neg hout, hrun]
  rfl

/-- A host address is an object of its own, without a shorter prefix. -/
def IsHost (o c : Cidr) : Prop :=
  c.len = lenOf c.family ∧ c.family = o.family ∧ c.bits = o.family.bits

/-- The first host is one behind the network where there is room. -/
theorem cidrMinhost_object (hi : heap[i]? = some o) (ho : ObjectOk o) : ∃ low,
    cidrMinhost env heap [.inl (.object i)] = .returns heap (some low) ∧ IsHost o low ∧
      low.number = network o.family.bits o.bits.toNat o.number +
        if o.bits < o.family.bits then 1 else 0 := by
  obtain ⟨-, hbits⟩ := (objectOk_iff o).mp ho
  obtain ⟨addr, hrun, hnumber⟩ := masked_self ho false
  have hok := applyMask_ok ho hrun
  obtain ⟨hfamily, hhost⟩ := minhost_bits (r := o.withAddr addr) hbits
  refine ⟨minhost (o.withAddr addr), ?_, ⟨((objectOk_iff _).mp (minhost_ok hok)).1, hfamily, hhost⟩, ?_⟩
  · rw [cidrMinhost, checkcidr_object hi]
    dsimp only
    rw [hrun]
    rfl
  · have hroom (hfew : o.bits < o.family.bits) : (o.withAddr addr).number + 1 < 2 ^ o.family.bits := by
      obtain ⟨hge, hle⟩ := hbits
      rw [hnumber]
      exact (network_add_mem (by omega) o.number_lt (Nat.one_lt_two_pow (by omega))).1
    rw [minhost_number hroom, hnumber]
    rfl

/-- The last host is one before the broadcast address. -/
theorem cidrMaxhost_object (hi : heap[i]? = some o) (ho : ObjectOk o) : ∃ high,
    cidrMaxhost env heap [.inl (.object i)] = .returns heap (some high) ∧ IsHost o high ∧
      high.number = o.last - if o.family = .inet ∧ o.bits < o.family.bits then 1 else 0 := by
  obtain ⟨-, hbits⟩ := (objectOk_iff o).mp ho
  obtain ⟨addr, hrun, hnumber⟩ := masked_self ho true
  have hok := applyMask_ok ho hrun
  obtain ⟨hfamily, hhost⟩ := maxhost_bits (r := o.withAddr addr) hbits
  refine ⟨maxhost (o.withAddr addr), ?_, ⟨((objectOk_iff _).mp (maxhost_ok hok)).1, hfamily, hhost⟩, ?_⟩
  · rw [cidrMaxhost, checkcidr_object hi]
    dsimp only
    rw [hrun]
    rfl
  · have hroom (hfew : o.bits < o.family.bits) : 1 ≤ (o.withAddr addr).number := by
      obtain ⟨hge, hle⟩ := hbits
      have hpow : 1 < 2 ^ (o.family.bits - o.bits.toNat) := Nat.one_lt_two_pow (by omega)
      rw [hnumber, if_pos rfl, Cidr.last]
      omega
    rw [maxhost_number hroom, hnumber]
    rfl

/-- The host range is right but for the prefixes of IPv4 that have no address between the
network and the broadcast address. -/
theorem hostRange_iff (env : Env) (hi : heap[i]? = some o) (ho : ObjectOk o) :
    HostRange env heap i o ↔ ¬(o.family = .inet ∧ o.bits = 31) := by
  obtain ⟨-, hge, hle⟩ := (objectOk_iff o).mp ho
  obtain ⟨net, hnet, hnetf, hnetn⟩ := @cidrNetwork_object o env heap i hi ho
  obtain ⟨low, hlow, ⟨hlowl, hlowf, hlowb⟩, hlown⟩ := @cidrMinhost_object o env heap i hi ho
  obtain ⟨high, hhigh, ⟨hhighl, hhighf, hhighb⟩, hhighn⟩ := @cidrMaxhost_object o env heap i hi ho
  rw [Cidr.last] at hhighn
  constructor
  · rintro ⟨net', low', high', -, hlow', hhigh', -, ⟨-, horder⟩, -⟩ ⟨hfamily, hbits⟩
    cases hlow.symm.trans hlow'
    cases hhigh.symm.trans hhigh'
    have hfew : (31 : ℤ) < Family.inet.bits := by decide
    have hsize : 2 ^ (Family.inet.bits - (31 : ℤ).toNat) = 2 := rfl
    rw [hfamily, hbits, if_pos hfew] at hlown
    rw [hfamily, hbits, if_pos ⟨rfl, hfew⟩, hsize] at hhighn
    omega
  · intro hne
    have hpos : 1 ≤ 2 ^ (o.family.bits - o.bits.toNat) := Nat.one_le_two_pow
    have hroom (hfew : o.bits < o.family.bits) : 2 ≤ 2 ^ (o.family.bits - o.bits.toNat) := by
      refine (pow_one 2).symm.le.trans (Nat.pow_le_pow_right Nat.two_pos (by omega))
    have hroom4 (hfew : o.family = .inet ∧ o.bits < o.family.bits) :
        4 ≤ 2 ^ (o.family.bits - o.bits.toNat) := by
      have hne : o.bits ≠ 31 := fun h => hne ⟨hfew.1, h⟩
      have hinet : o.family.bits = 32 := by rw [hfew.1]; rfl
      exact Nat.pow_le_pow_right (n := 2) (i := 2) Nat.two_pos (by omega)
    have horder : low.number ≤ high.number := by
      rw [hlown, hhighn]
      split_ifs with hfew hfew4 hfew4
      · have := hroom4 hfew4
        omega
      · have := hroom hfew
        omega
      · exact absurd hfew4.2 hfew
      · omega
    refine ⟨net, low, high, hnet, hlow, hhigh, ⟨hnetf.trans hlowf.symm, by omega⟩,
      ⟨hlowf.trans hhighf.symm, horder⟩, ?_, ?_, fun hfamily => ?_, fun hfew => ?_⟩
    · refine contains_host ho hlowl hlowf hlowb ?_ hlown
      split_ifs with hfew
      · exact hroom hfew
      · exact hpos
    · refine contains_host ho hhighl hhighf hhighb
        (d := 2 ^ (o.family.bits - o.bits.toNat) - 1 -
          if o.family = .inet ∧ o.bits < o.family.bits then 1 else 0) (by omega) ?_
      rw [hhighn]
      split_ifs with hfew4
      · have := hroom4 hfew4
        omega
      · rfl
    · obtain ⟨br, hbr, hbrf, hbrn⟩ := @cidrBroadcast_object o env heap i hi ho hfamily
      rw [Cidr.last] at hbrn
      exact ⟨br, hbr, hhighf.trans hbrf.symm, by omega⟩
    · rw [hlown, hnetn, if_pos (by omega)]

/-- 192.0.2.4/31 has the host addresses 192.0.2.5 to 192.0.2.4. -/
theorem hostRange_point_to_point : ¬HostRange ⟨twoAddresses, [], zeroes⟩
    [⟨fun i => if i = 0 then 192 else if i = 2 then 2 else if i = 3 then 4 else 0, 4, 31, .inet⟩] 0
    ⟨fun i => if i = 0 then 192 else if i = 2 then 2 else if i = 3 then 4 else 0, 4, 31, .inet⟩ := by
  rintro ⟨net, low, high, -, hlow, hhigh, -, ⟨-, horder⟩, -⟩
  cases hlow
  cases hhigh
  exact absurd horder (by decide)

theorem hostRange_iff_ten : HostRange ⟨twoAddresses, [], zeroes⟩ [tenNet 8] 0 (tenNet 8) ↔
    ¬((tenNet 8).family = .inet ∧ (tenNet 8).bits = 31) :=
  hostRange_iff _ (i := 0) (show [tenNet 8][0]? = some (tenNet 8) from rfl)
    (by unfold ObjectOk; decide)

end

/-- The address that _cidr_new makes of a number. -/
def numberOn (h : Host) (x : BitVec 32) (family : Option Family) : Cidr :=
  let n := htonl h x
  match family with
  | some .inet6 => ⟨fun i => if 12 ≤ i then byte n (i - 12) else 0, sizeofV6, 128, .inet6⟩
  | _ => ⟨storeWord h n fun _ => 0, sizeofV4, 32, .inet⟩

def cidrNewOn (h : Host) (env : Env) (stack : Stack) (index : ℕ) (family : Option Family)
    (mask : Bool) : New :=
  match valueAt stack index with
  | some (.inl (.number x)) => .object (numberOn h x family)
  | _ => cidrNew env stack index family mask

def checkcidrOn (h : Host) (env : Env) (heap : List Cidr) (stack : Stack) (index : ℕ)
    (p : Option Cidr) : Option Operand :=
  match valueAt stack index with
  | some (.inl (.object ref)) => heap[ref]?.map fun c => ⟨c, some ref, stack⟩
  | some (.inr c) => some ⟨c, none, stack⟩
  | _ =>
      match cidrNewOn h env stack index (p.map Cidr.family) false with
      | .object c => some ⟨c, none, stack ++ [.inr c]⟩
      | _ => none

/-- The result of _cidr_add_sub and whether it is exact. -/
def addSub (h : Host) (add : Bool) (p1 p2 : Cidr) : Cidr × Bool :=
  if p1.family = p2.family then
    match p1.family with
    | .inet6 =>
        let r := addSubBytes add p1.addr p2.addr 16
        if r.2 ≠ 0 then (p1.withAddr (if add then fun _ => 0xFF else fun _ => 0), false)
        else (p1.withAddr r.1, true)
    | .inet =>
        let a := ntohl h (loadWord h p1.addr)
        let b := ntohl h (loadWord h p2.addr)
        if add ∧ 0xFFFFFFFF - a < b ∨ ¬add ∧ a < b then
          (p1.withAddr (storeWord h (if add then 0xFFFFFFFF else 0) p1.addr), false)
        else (p1.withAddr (storeWord h (htonl h (if add then a + b else a - b)) p1.addr), true)
  else (p1, false)

/-- What add and sub give to Lua: the objects, and a new object or an answer. -/
inductive SumRet
  | error
  | returns (heap : List Cidr) (value : Cidr ⊕ Bool)

/-- _cidr_add_sub. -/
def cidrAddSubOn (h : Host) (env : Env) (heap : List Cidr) (stack : Stack) (add : Bool) : SumRet :=
  match checkcidrOn h env heap stack 1 none with
  | none => .error
  | some p1 =>
      match checkcidrOn h env heap p1.stack 2 (some p1.val) with
      | none => .error
      | some p2 =>
          let r := addSub h add p1.val p2.val
          match valueAt p2.stack 3, p1.ref with
          | some (.inl (.boolean true)), some ref => .returns (heap.set ref r.1) (.inr r.2)
          | some (.inl (.boolean true)), none => .returns heap (.inr r.2)
          | _, _ => .returns heap (.inl r.1)

/-- The answer left out. -/
def SumRet.toRet : SumRet → Ret
  | .error => .error
  | .returns heap (.inl c) => .returns heap (some c)
  | .returns heap (.inr _) => .returns heap none

section

variable (env : Env) (heap : List Cidr) (stack : Stack)

theorem cidrNewOn_little (index : ℕ) (family : Option Family) (mask : Bool) :
    cidrNewOn .little env stack index family mask = cidrNew env stack index family mask := by
  unfold cidrNewOn cidrNew
  split
  next x hx =>
    rw [hx]
    rcases family with _ | _ | _ <;> rfl
  next => rfl

theorem checkcidrOn_little (index : ℕ) (p : Option Cidr) :
    checkcidrOn .little env heap stack index p = checkcidr env heap stack index p := by
  have hnew := cidrNewOn_little env stack index (p.map Cidr.family) false
  unfold checkcidrOn checkcidr
  rcases valueAt stack index with _ | v | c
  · cases h : cidrNew env stack index (p.map Cidr.family) false <;> simp only [hnew, h]
  · cases v with
    | object ref => rfl
    | _ => cases h : cidrNew env stack index (p.map Cidr.family) false <;> simp only [hnew, h]
  · rfl

theorem addSub_little (add : Bool) (p1 p2 : Cidr) : (addSub .little add p1 p2).1 =
    if p1.family = p2.family then p1.withAddr (addSubAddr add p1 p2) else p1 := by
  unfold addSub addSubAddr
  by_cases hsame : p1.family = p2.family
  · rw [if_pos hsame, if_pos hsame]
    cases hfamily : p1.family with
    | inet =>
      dsimp only
      split <;> rfl
    | inet6 =>
      dsimp only
      split <;> rfl
  · rw [if_neg hsame, if_neg hsame]

/-- The functions on a little-endian host are the ones of the objects. -/
theorem cidrAddSubOn_little (add : Bool) :
    (cidrAddSubOn .little env heap stack add).toRet = cidrAddSub env heap stack add := by
  unfold cidrAddSubOn cidrAddSub
  rw [checkcidrOn_little]
  cases checkcidr env heap stack 1 none with
  | none => rfl
  | some p1 =>
    dsimp only
    rw [checkcidrOn_little]
    cases checkcidr env heap p1.stack 2 (some p1.val) with
    | none => rfl
    | some p2 =>
      dsimp only
      rw [addSub_little]
      rcases valueAt p2.stack 3 with _ | v | c
      · rfl
      · cases v with
        | boolean b => cases b <;> cases p1.ref <;> rfl
        | _ => rfl
      · rfl

end

theorem add_spec (x y : Mem) {i : ℕ} (hi : i ≤ 16) : (addSubBytes true x y i).2 ≤ 1 ∧
    lastValue (addSubBytes true x y i).1 16 i + (addSubBytes true x y i).2 * 2 ^ (8 * i) =
      lastValue x 16 i + lastValue y 16 i := by
  induction i with
  | zero => exact ⟨Nat.zero_le 1, rfl⟩
  | succ i ih =>
    obtain ⟨hle, hsum⟩ := ih (Nat.le_of_succ_le hi)
    have hx := (x (15 - i)).toNat_lt
    have hy := (y (15 - i)).toNat_lt
    have hcarry : ((addSubBytes true x y i).2.toUInt8).toNat = (addSubBytes true x y i).2 :=
      Nat.mod_eq_of_lt (by omega)
    have hbyte : (x (15 - i) + y (15 - i) + (addSubBytes true x y i).2.toUInt8).toNat +
        ((x (15 - i)).toNat + (y (15 - i)).toNat + (addSubBytes true x y i).2) / 256 * 2 ^ 8 =
          (x (15 - i)).toNat + (y (15 - i)).toNat + (addSubBytes true x y i).2 := by
      rw [UInt8.toNat_add, UInt8.toNat_add, hcarry]
      omega
    refine ⟨by show (_ + _ + _) / 256 ≤ 1; omega, ?_⟩
    refine (carry_step (w := 16) hi hbyte hsum).trans ?_
    rw [lastValue, lastValue]
    show _ = (x (15 - i)).toNat * 2 ^ (8 * i) + _ + ((y (15 - i)).toNat * 2 ^ (8 * i) + _)
    ring

theorem sub_spec (x y : Mem) {i : ℕ} (hi : i ≤ 16) : (addSubBytes false x y i).2 ≤ 1 ∧
    lastValue (addSubBytes false x y i).1 16 i + lastValue y 16 i =
      lastValue x 16 i + (addSubBytes false x y i).2 * 2 ^ (8 * i) := by
  induction i with
  | zero => exact ⟨Nat.zero_le 1, rfl⟩
  | succ i ih =>
    obtain ⟨hle, hsum⟩ := ih (Nat.le_of_succ_le hi)
    have hx := (x (15 - i)).toNat_lt
    have hy := (y (15 - i)).toNat_lt
    have hcarry : ((addSubBytes false x y i).2.toUInt8).toNat = (addSubBytes false x y i).2 :=
      Nat.mod_eq_of_lt (by omega)
    have hbyte : (x (15 - i) - y (15 - i) - (addSubBytes false x y i).2.toUInt8).toNat +
        ((y (15 - i)).toNat + (addSubBytes false x y i).2) = (x (15 - i)).toNat +
          (if (x (15 - i)).toNat < (y (15 - i)).toNat + (addSubBytes false x y i).2 then 1 else 0) *
            2 ^ 8 := by
      rw [UInt8.toNat_sub, UInt8.toNat_sub, hcarry]
      split <;> omega
    refine ⟨by show (if _ then 1 else 0) ≤ 1; split <;> decide, ?_⟩
    exact borrow_step (w := 16) hi hbyte hsum

/-- The sum or difference in w bits. -/
def clamp (add : Bool) (w a b : ℕ) : ℕ := if add then min (a + b) (2 ^ w - 1) else a - b

/-- No clamping takes place. -/
def Exact (add : Bool) (w a b : ℕ) : Prop := if add then a + b < 2 ^ w else b ≤ a

instance (add : Bool) (w a b : ℕ) : Decidable (Exact add w a b) := by
  unfold Exact
  infer_instance

/-- The test for a clamped word. -/
theorem clamps_iff (add : Bool) (a b : BitVec 32) :
    (add ∧ 0xFFFFFFFF - a < b ∨ ¬add ∧ a < b) ↔ ¬Exact add 32 a.toNat b.toNat := by
  have hlt := a.isLt
  have hfull : (0xFFFFFFFF - a).toNat = 2 ^ 32 - 1 - a.toNat :=
    BitVec.toNat_sub_of_le (BitVec.le_def.mpr (by show _ ≤ 2 ^ 32 - 1; omega))
  unfold Exact
  rw [BitVec.lt_def, BitVec.lt_def, hfull]
  cases add with
  | true =>
    simp only [if_true, true_and, not_true, false_and, or_false]
    omega
  | false =>
    simp only [Bool.false_eq_true, if_false, false_and, false_or, not_false_eq_true, true_and, not_le]

theorem storeWord_clamped (h : Host) (add : Bool) (m : Mem) :
    storeWord h (if add then 0xFFFFFFFF else 0) m =
      storeWord .big (if add then 0xFFFFFFFF else 0) m := by
  rw [storeWord_eq]
  cases h <;> cases add <;> rfl

section

variable {p1 p2 : Cidr} {add : Bool}

theorem clamp_of_not_exact {w a b : ℕ} (h : ¬Exact add w a b) :
    clamp add w a b = if add then 2 ^ w - 1 else 0 := by
  unfold Exact at h
  unfold clamp
  cases add with
  | true => exact min_eq_right (by simp only [if_true] at h; omega)
  | false => exact Nat.sub_eq_zero_of_le (by simp only [Bool.false_eq_true, if_false] at h; omega)

theorem addSub_inet (hf1 : p1.family = .inet) (hf2 : p2.family = .inet) : ∃ addr,
    (∀ h, addSub h add p1 p2 = (p1.withAddr addr, decide (Exact add 32 p1.number p2.number))) ∧
      (p1.withAddr addr).number = clamp add 32 p1.number p2.number := by
  rw [number_inet hf1, number_inet hf2]
  have hrun (h : Host) : addSub h add p1 p2 =
      if ¬Exact add 32 (loadWord .big p1.addr).toNat (loadWord .big p2.addr).toNat then
        (p1.withAddr (storeWord .big (if add then 0xFFFFFFFF else 0) p1.addr), false)
      else (p1.withAddr (storeWord .big (if add then loadWord .big p1.addr + loadWord .big p2.addr
        else loadWord .big p1.addr - loadWord .big p2.addr) p1.addr), true) := by
    unfold addSub
    rw [if_pos (hf1.trans hf2.symm), hf1]
    dsimp only
    rw [ntohl_loadWord, ntohl_loadWord, storeWord_clamped, storeWord_htonl]
    simp only [clamps_iff]
  by_cases hexact : Exact add 32 (loadWord .big p1.addr).toNat (loadWord .big p2.addr).toNat
  · refine ⟨_, fun h => by rw [hrun, if_neg (not_not.mpr hexact), decide_eq_true hexact], ?_⟩
    rw [number_storeWord hf1]
    unfold Exact at hexact
    unfold clamp
    cases add with
    | true =>
      simp only [if_true] at hexact ⊢
      rw [BitVec.toNat_add, Nat.mod_eq_of_lt hexact]
      omega
    | false => exact BitVec.toNat_sub_of_le (BitVec.le_def.mpr hexact)
  · refine ⟨_, fun h => by rw [hrun, if_pos hexact, decide_eq_false hexact], ?_⟩
    rw [number_storeWord hf1, clamp_of_not_exact hexact]
    cases add <;> rfl

theorem beValue_clamped (add : Bool) (n : ℕ) :
    beValue (if add then fun _ => 0xFF else fun _ => 0) n = if add then 2 ^ (8 * n) - 1 else 0 := by
  rw [← beValue_fill (fun _ => 0) n add]
  refine beValue_congr fun i hi => ?_
  have hin : 0 ≤ i ∧ i < 0 + n := ⟨Nat.zero_le i, by omega⟩
  cases add <;> exact (if_pos hin).symm

/-- The carry out of the last byte tells whether the sum or difference is exact. -/
theorem carry_iff (x y : Mem) (add : Bool) :
    ((addSubBytes add x y 16).2 = 0 ↔ Exact add 128 (beValue x 16) (beValue y 16)) ∧
      ((addSubBytes add x y 16).2 = 0 →
        beValue (addSubBytes add x y 16).1 16 = clamp add 128 (beValue x 16) (beValue y 16)) := by
  have hx := beValue_lt x 16
  have hy := beValue_lt y 16
  have hr := beValue_lt (addSubBytes add x y 16).1 16
  unfold Exact clamp
  cases add with
  | true =>
    obtain ⟨hle, hsum⟩ := add_spec x y (le_refl 16)
    rw [lastValue_self, lastValue_self, lastValue_self] at hsum
    simp only [if_true]
    constructor <;> omega
  | false =>
    obtain ⟨hle, hsum⟩ := sub_spec x y (le_refl 16)
    rw [lastValue_self, lastValue_self, lastValue_self] at hsum
    simp only [Bool.false_eq_true, if_false]
    constructor <;> omega

theorem addSub_exact (h : Host) (hf1 : p1.family = .inet6) (hf2 : p2.family = .inet6)
    (hexact : Exact add 128 p1.number p2.number) :
    addSub h add p1 p2 = (p1.withAddr (addSubBytes add p1.addr p2.addr 16).1, true) := by
  rw [number_inet6 hf1, number_inet6 hf2] at hexact
  have hzero := (carry_iff p1.addr p2.addr add).1.mpr hexact
  unfold addSub
  rw [if_pos (hf1.trans hf2.symm), hf1]
  exact if_neg (not_not.mpr hzero)

theorem addSub_clamped (h : Host) (hf1 : p1.family = .inet6) (hf2 : p2.family = .inet6)
    (hclamp : ¬Exact add 128 p1.number p2.number) :
    addSub h add p1 p2 = (p1.withAddr (if add then fun _ => 0xFF else fun _ => 0), false) := by
  rw [number_inet6 hf1, number_inet6 hf2] at hclamp
  have hcarry := mt (carry_iff p1.addr p2.addr add).1.mp hclamp
  unfold addSub
  rw [if_pos (hf1.trans hf2.symm), hf1]
  exact if_pos hcarry

theorem addSub_inet6 (hf1 : p1.family = .inet6) (hf2 : p2.family = .inet6) : ∃ addr,
    (∀ h, addSub h add p1 p2 = (p1.withAddr addr, decide (Exact add 128 p1.number p2.number))) ∧
      (p1.withAddr addr).number = clamp add 128 p1.number p2.number := by
  have hnumber (addr : Mem) : (p1.withAddr addr).number = beValue addr 16 :=
    number_inet6 (c := p1.withAddr addr) hf1
  by_cases hexact : Exact add 128 p1.number p2.number
  · refine ⟨_, fun h => by rw [addSub_exact h hf1 hf2 hexact, decide_eq_true hexact], ?_⟩
    rw [hnumber]
    rw [number_inet6 hf1, number_inet6 hf2] at hexact ⊢
    obtain ⟨hzero, hsum⟩ := carry_iff p1.addr p2.addr add
    exact hsum (hzero.mpr hexact)
  · refine ⟨_, fun h => by rw [addSub_clamped h hf1 hf2 hexact, decide_eq_false hexact], ?_⟩
    rw [hnumber, clamp_of_not_exact hexact]
    exact beValue_clamped add 16

/-- The sum or difference is the same on both hosts. -/
theorem addSub_spec (hfamily : p2.family = p1.family) : ∃ addr,
    (∀ h, addSub h add p1 p2 =
        (p1.withAddr addr, decide (Exact add p1.family.bits p1.number p2.number))) ∧
      (p1.withAddr addr).number = clamp add p1.family.bits p1.number p2.number := by
  cases hf : p1.family with
  | inet => exact addSub_inet hf (hfamily.trans hf)
  | inet6 => exact addSub_inet6 hf (hfamily.trans hf)

end

section

variable (h : Host) (n : BitVec 32)

theorem numberOn_inet : (numberOn h n (some .inet)).number = n.toNat := by
  show (Cidr.mk (storeWord h (htonl h n) fun _ => 0) sizeofV4 32 .inet).number = n.toNat
  rw [number_inet rfl, storeWord_htonl, loadWord_storeWord]

/-- The bytes are taken from the lowest on, as they lie in a little-endian word. -/
theorem numberOn_inet6 : (numberOn h n (some .inet6)).number = (swap (htonl h n)).toNat := by
  rw [numberOn, number_inet6 (c := ⟨_, _, _, .inet6⟩) rfl, swap, toNat_word]
  simp [beValue]
  omega

end

/-- The number that an operand stands for: an object of the family, or a plain number. -/
inductive Stands (heap : List Cidr) (family : Family) : Value → ℕ → Prop
  | object {j : ℕ} {c : Cidr} (hj : heap[j]? = some c) (hc : ObjectOk c) (hfamily : c.family = family) :
      Stands heap family (.object j) c.number
  | number (n : BitVec 32) : Stands heap family (.number n) n.toNat

/-- One result for all hosts, which is the sum or difference of the numbers, and an answer
in place that tells whether it was clamped. -/
def SumOk (env : Env) (heap : List Cidr) (i : ℕ) (a : Cidr) (v : Value) (b : ℕ) (add : Bool) : Prop :=
  ∃ r : Cidr, r.family = a.family ∧ r.bits = a.bits ∧
    r.number = clamp add a.family.bits a.number b ∧
    ∀ h, cidrAddSubOn h env heap [.inl (.object i), .inl v] add = .returns heap (.inl r) ∧
      cidrAddSubOn h env heap [.inl (.object i), .inl v, .inl (.boolean true)] add =
        .returns (heap.set i r) (.inr (decide (Exact add a.family.bits a.number b)))

/-- The operand is an object, or an IPv4 address is asked for, or the number reads the same
in both byte orders, or is clamped in both. -/
def Portable (add : Bool) (a : Cidr) : Value → Prop
  | .number n => a.family = .inet6 → swap n = n ∨
      ¬Exact add 128 a.number n.toNat ∧ ¬Exact add 128 a.number (swap n).toNat
  | _ => True

section

variable {heap : List Cidr} {i : ℕ} {a : Cidr} {v : Value} {b : ℕ} {add : Bool}

/-- The operand of a host. -/
def operandOn (h : Host) (heap : List Cidr) (family : Family) : Value → Option Cidr
  | .object j => heap[j]?
  | .number n => some (numberOn h n (some family))
  | _ => none

theorem cidrAddSubOn_operand (h : Host) (env : Env) {p2 : Cidr} (hi : heap[i]? = some a)
    (hv : operandOn h heap a.family v = some p2) :
    cidrAddSubOn h env heap [.inl (.object i), .inl v] add = .returns heap (.inl (addSub h add a p2).1) ∧
      cidrAddSubOn h env heap [.inl (.object i), .inl v, .inl (.boolean true)] add =
        .returns (heap.set i (addSub h add a p2).1) (.inr (addSub h add a p2).2) := by
  have hfirst (rest : Stack) : checkcidrOn h env heap (.inl (.object i) :: .inl v :: rest) 1 none =
      some ⟨a, some i, .inl (.object i) :: .inl v :: rest⟩ := congrArg (Option.map _) hi
  cases v with
  | object j =>
    have hsecond (rest : Stack) : checkcidrOn h env heap
        (.inl (.object i) :: .inl (.object j) :: rest) 2 (some a) =
        some ⟨p2, some j, .inl (.object i) :: .inl (.object j) :: rest⟩ := congrArg (Option.map _) hv
    constructor
    · unfold cidrAddSubOn
      rw [hfirst]
      dsimp only
      rw [hsecond]
      rfl
    · unfold cidrAddSubOn
      rw [hfirst]
      dsimp only
      rw [hsecond]
      rfl
  | number n =>
    cases hv
    constructor
    · unfold cidrAddSubOn
      rw [hfirst]
      rfl
    · unfold cidrAddSubOn
      rw [hfirst]
      rfl
  | _ => cases hv

theorem numberOn_family (h : Host) (n : BitVec 32) (family : Family) :
    (numberOn h n (some family)).family = family := by
  cases family <;> rfl

/-- An operand that is the same object on all hosts. -/
theorem sumOk_of_operand (env : Env) {p2 : Cidr} (hi : heap[i]? = some a)
    (hv : ∀ h, operandOn h heap a.family v = some p2) (hfamily : p2.family = a.family)
    (hb : p2.number = b) : SumOk env heap i a v b add := by
  obtain ⟨addr, hrun, hnumber⟩ := @addSub_spec a p2 add hfamily
  rw [hb] at hrun hnumber
  refine ⟨a.withAddr addr, rfl, rfl, hnumber, fun h => ?_⟩
  have hsum := @cidrAddSubOn_operand heap i a v add h env p2 hi (hv h)
  rwa [hrun h] at hsum

theorem sumOk_of_clamped (env : Env) {n : BitVec 32} (hi : heap[i]? = some a) (hfamily : a.family = .inet6)
    (hlittle : ¬Exact add 128 a.number n.toNat) (hbig : ¬Exact add 128 a.number (swap n).toNat) :
    SumOk env heap i a (.number n) n.toNat add := by
  have hclamp (h : Host) : ¬Exact add 128 a.number (numberOn h n (some .inet6)).number := by
    rw [numberOn_inet6]
    cases h with
    | little => rwa [htonl, ntohl, swap_swap]
    | big => rwa [htonl, ntohl]
  have hwidth : a.family.bits = 128 := by
    rw [hfamily]
    rfl
  have hnumber (addr : Mem) : (a.withAddr addr).number = beValue addr 16 :=
    number_inet6 (c := a.withAddr addr) hfamily
  refine ⟨a.withAddr (if add then fun _ => 0xFF else fun _ => 0), rfl, rfl, ?_, fun h => ?_⟩
  · rw [hnumber, hwidth, clamp_of_not_exact hlittle]
    exact beValue_clamped add 16
  · have hsum := @cidrAddSubOn_operand heap i a (.number n) add h env _ hi rfl
    rw [hfamily, addSub_clamped h hfamily rfl (hclamp h)] at hsum
    rw [hwidth, decide_eq_false hlittle]
    exact hsum

/-- 2001:db8::, to which a number is added. -/
def documentation : Cidr :=
  ⟨fun i => if i = 0 then 0x20 else if i = 1 then 1 else if i = 2 then 0x0D else if i = 3 then 0xB8 else 0,
    sizeofV6, 64, .inet6⟩

end

end Iot7688.LuciIp
