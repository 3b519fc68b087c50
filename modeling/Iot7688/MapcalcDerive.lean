import Iot7688.MapcalcPorts

/-!
The derivation of addresses. A rule is derived exactly when its lengths keep the helpers
inside the delegated prefix and leave the PSID as the end of the EA bits. The lengths come
from four options that are checked one by one, so they need not.
-/
namespace Iot7688.Mapcalc

open Lib

variable {w : Wide} {env : Env} {s : Settings} {f : Found} {l : Lengths} {r : Rule}

/-- The EA bits follow the first bits of the delegated prefix. The IPv4 address is its prefix
and the first EA bits, the PSID the last ones. -/
structure Exact (r : Rule) : Prop where
  room : r.settings.prefix6len.val + r.lengths.ealen ≤ 128
  addr : ∀ i, i < 32 → bit r.ipv4addr i =
    if i < r.settings.prefix4len.val.toNat then bit r.settings.ipv4prefix i
    else decide (i - r.settings.prefix4len.val.toNat < r.lengths.ealen.toNat) &&
      bit r.found.pd (r.settings.prefix6len.val.toNat + (i - r.settings.prefix4len.val.toNat))
  psid : beValue r.psid16 2 = bitField r.found.pd
    (r.settings.prefix6len.val + r.lengths.ealen - r.lengths.psidlen).toNat
      r.lengths.psidlen.toNat

/-- No helper leaves its objects, and a rule with a delegated prefix is exact. -/
def Sound : Except Fault Outcome → Prop
  | .error _ => False
  | .ok (.skipped _) => True
  | .ok (.rule r) => 0 ≤ r.found.pdlen → Exact r

/-- The EA bits are the suffix of the IPv4 address and the PSID. -/
structure Splits (s : Settings) (f : Found) (l : Lengths) : Prop where
  room : s.prefix6len.val + l.ealen ≤ 128
  psidlen : 0 ≤ l.psidlen ∧ l.psidlen ≤ 16
  given : 0 ≤ l.psid → l.psid / 2 ^ (16 - l.psidlen.toNat) =
    bitField f.pd (s.prefix6len.val + l.ealen - l.psidlen).toNat l.psidlen.toNat
  zeros : ∀ i, (l.ealen - l.psidlen).toNat ≤ i → i < l.ealen.toNat →
    i < 32 - s.prefix4len.val.toNat → bit f.pd (s.prefix6len.val.toNat + i) = false

def LengthsFit (s : Settings) (f : Found) (l : Lengths) : Prop :=
  PsidInside s f l ∧ (Invalid s l ∨ AddressInside s f l ∧ (0 ≤ f.pdlen → Splits s f l))

/-- The shifts of main are by less than the width of an int. -/
def ShiftsInside (s : Settings) (f : Found) (l : Lengths) : Prop :=
  -16 < l.psidlen ∧ l.psidlen ≤ 16 ∧ (Invalid s l ∨
    (0 ≤ f.pdlen ∨ l.ealen = l.psidlen → s.prefix4len.val < 32) ∧
    (0 ≤ f.pdlen ∨ s.fmr → 0 < l.psidlen → PsidRead f l ∨ 0 ≤ l.psid →
      l.offset + l.psidlen ≤ 16))

/-- Where the PSID is read, the sizes do not wrap around. -/
theorem psidAt_eq (hr : Ranged s f l) (hv : Valid s l) (hq : 0 ≤ l.psidlen) :
    psidAt s.prefix6len l = (s.prefix6len.val + l.ealen - l.psidlen).toNat := by
  have hp6 := s.prefix6len.property
  have hp6' := hv.prefix6len
  have hea := hr.short hv.prefix6len
  have hea' := hv.ealen
  have hle := hv.psidlen
  have hsum : int32 (s.prefix6len.val + l.ealen) = s.prefix6len.val + l.ealen :=
    int32_of_small (by omega) (by omega)
  unfold psidAt
  rw [hsum, int32_of_small (by omega) (by omega), sizeT_of_small (by omega) (by omega)]

/-- The PSID is the end of the EA bits when it is read, or given so. -/
theorem psidOf_exact_iff (hr : Ranged s f l) (hv : Valid s l) (hpd : 0 ≤ f.pdlen)
    (hq : 0 ≤ l.psidlen) (hq' : l.psidlen ≤ 16) :
    psidOf s f l / 2 ^ (16 - l.psidlen.toNat) =
        bitField f.pd (s.prefix6len.val + l.ealen - l.psidlen).toNat l.psidlen.toNat ↔
      (0 ≤ l.psid → l.psid / 2 ^ (16 - l.psidlen.toNat) =
        bitField f.pd (s.prefix6len.val + l.ealen - l.psidlen).toNat l.psidlen.toNat) := by
  have hpow : (0 : ℤ) < 2 ^ (16 - l.psidlen.toNat) := Int.pow_pos (by decide)
  unfold psidOf
  by_cases hpsid : l.psid < 0
  · rw [if_pos ⟨hpsid, hq', hq, hpd, hv.psidlen⟩, psidAt_eq hr hv hq,
      Int.mul_ediv_cancel _ hpow.ne']
    exact ⟨fun _ h => absurd hpsid (not_lt.mpr h), fun _ => rfl⟩
  · have hgiven : 0 ≤ l.psid := not_lt.mp hpsid
    rw [if_neg fun h : PsidRead f l => hpsid h.1]
    exact ⟨fun h _ => h, fun h => h hgiven⟩

theorem psidOf_nonneg (hv : Valid s l) (hpd : 0 ≤ f.pdlen) (hq : 0 ≤ l.psidlen)
    (hq' : l.psidlen ≤ 16) : 0 ≤ psidOf s f l := by
  unfold psidOf
  by_cases hpsid : l.psid < 0
  · rw [if_pos ⟨hpsid, hq', hq, hpd, hv.psidlen⟩]
    exact_mod_cast Nat.zero_le _
  · rw [if_neg fun h : PsidRead f l => hpsid h.1]
    exact not_lt.mp hpsid

/-- A number in two bytes. -/
theorem beValue_beBytes_int {a : ℤ} (hlow : 0 ≤ a) (hhigh : a ≤ 65535) :
    beValue (beBytes 2 (a % 2 ^ 16).toNat) 2 = a.toNat := by
  have hmod : (a % 2 ^ 16).toNat = a.toNat := by omega
  rw [hmod]
  exact beValue_beBytes (by omega)

/-- The suffix of the address has all EA bits that fit when the PSID has no other ones. -/
theorem address_exact_iff (hv : Valid s l) (hq : 0 ≤ l.psidlen) {m : Mem} (h : IsAddress s f l m) :
    (∀ i, i < 32 → bit m i =
      if i < s.prefix4len.val.toNat then bit s.ipv4prefix i
      else decide (i - s.prefix4len.val.toNat < l.ealen.toNat) &&
        bit f.pd (s.prefix6len.val.toNat + (i - s.prefix4len.val.toNat))) ↔
      ∀ i, (l.ealen - l.psidlen).toNat ≤ i → i < l.ealen.toNat →
        i < 32 - s.prefix4len.val.toNat → bit f.pd (s.prefix6len.val.toNat + i) = false := by
  have hle := hv.psidlen
  constructor
  · intro hexact i hsuffix hea hroom
    have hbit := (h (s.prefix4len.val.toNat + i) (by omega)).symm.trans
      (hexact (s.prefix4len.val.toNat + i) (by omega))
    rw [if_neg (by omega), if_neg (by omega), Nat.add_sub_cancel_left,
      decide_eq_false (not_lt.mpr hsuffix), decide_eq_true hea, Bool.false_and, Bool.true_and] at hbit
    exact hbit.symm
  · intro hzeros i hi
    rw [h i hi]
    by_cases hfront : i < s.prefix4len.val.toNat
    · rw [if_pos hfront, if_pos hfront]
    · rw [if_neg hfront, if_neg hfront]
      generalize hk : i - s.prefix4len.val.toNat = k
      by_cases hsuffix : k < (l.ealen - l.psidlen).toNat
      · rw [decide_eq_true hsuffix, decide_eq_true (by omega)]
      · rw [decide_eq_false hsuffix, Bool.false_and]
        by_cases hea : k < l.ealen.toNat
        · rw [hzeros k (not_lt.mp hsuffix) hea (by omega), Bool.and_false]
        · rw [decide_eq_false hea, Bool.false_and]

/-- What a printed rule is made of. -/
theorem derive_printed (h : derive w env s f l = .ok (.rule r)) :
    ∃ a b, PsidInside s f l ∧ shiftRight w (psidOf s f l) (16 - l.psidlen) = .ok a ∧
      shiftLeft w a (16 - l.psidlen) = .ok b ∧ ¬Invalid s l ∧
      readAddress w s f l = .ok r.ipv4addr ∧ (0 ≤ f.pdlen ∨ s.fmr) ∧
      portsets w l b = .ok r.portsets ∧ r.psid16 = beBytes 2 (a % 2 ^ 16).toNat ∧
      r.settings = s ∧ r.lengths = l ∧ r.found = f := by
  obtain ⟨a, b, hinside, ha, hb, h⟩ := derive_ok.mp h
  refine ⟨a, b, hinside, ha, hb, ?_⟩
  rcases finish_ok.mp h with ⟨_, heq⟩ | ⟨hvalid, addr, haddr, ⟨_, _, heq⟩ | ⟨hpd, _, _, _, hranges, heq⟩⟩
  · cases heq
  · cases heq
  · cases heq
    exact ⟨hvalid, haddr, hpd, hranges, rfl, rfl, rfl, rfl⟩

/-- With a PSID that fits into 16 bits, a printed rule is exact when its lengths are. -/
theorem derived_exact_iff (hr : Ranged s f l) (hpd : 0 ≤ f.pdlen) (hq : 0 ≤ l.psidlen) (hq' : l.psidlen ≤ 16)
    (hw : s.prefix4len.val < 32 ∨ ∃ g, w = .gives g)
    (h : derive w env s f l = .ok (.rule r)) : Exact r ↔ Splits s f l := by
  obtain ⟨a, b, _, ha, _, hvalid, haddr, _, _, hpsid16, hs, hl, hf⟩ := derive_printed h
  have hv := valid_of_not_invalid hvalid
  obtain ⟨_, hxhigh⟩ := psidOf_range hr
  have hx := psidOf_nonneg hv hpd hq hq'
  have hn : (16 - l.psidlen).toNat = 16 - l.psidlen.toNat := by omega
  have hpow : (0 : ℤ) < 2 ^ (16 - l.psidlen.toNat) := Int.pow_pos (by decide)
  rw [shiftRight_inside w _ (by omega) (by omega), hn] at ha
  injection ha with ha
  have hlow : 0 ≤ a := ha ▸ Int.ediv_nonneg hx hpow.le
  have hhigh : a ≤ 65535 := by
    have := Int.ediv_le_self (2 ^ (16 - l.psidlen.toNat)) hx
    omega
  have hvalue : beValue r.psid16 2 = a.toNat := hpsid16 ▸ beValue_beBytes_int hlow hhigh
  have hpsid : beValue r.psid16 2 =
      bitField f.pd (s.prefix6len.val + l.ealen - l.psidlen).toNat l.psidlen.toNat ↔
      (0 ≤ l.psid → l.psid / 2 ^ (16 - l.psidlen.toNat) =
        bitField f.pd (s.prefix6len.val + l.ealen - l.psidlen).toNat l.psidlen.toNat) := by
    rw [← psidOf_exact_iff hr hv hpd hq hq', ha, hvalue]
    omega
  have hderived : 0 ≤ f.pdlen ∨ l.ealen = l.psidlen := Or.inl hpd
  have hinside := addressInside_of_readAddress hr hv haddr
  obtain ⟨m, hm, hbits⟩ := readAddress_inside hv hderived hinside hw
  rw [hm] at haddr
  injection haddr with haddr
  subst haddr
  have haddress := address_exact_iff hv hq hbits
  subst hs hl hf
  constructor
  · intro hexact
    exact ⟨hexact.room, ⟨hq, hq'⟩, hpsid.mp hexact.psid, haddress.mp hexact.addr⟩
  · intro hsplits
    exact ⟨hsplits.room, haddress.mpr hsplits.zeros, hpsid.mpr hsplits.given⟩

/-- A shift of -1 gives -1, unless the machine has another result for a large amount. -/
theorem shiftRight_neg_one {a n : ℤ} (hw : w = .traps ∨ w = .gives fun _ _ => -1)
    (h : shiftRight w (-1) n = .ok a) : a = -1 := by
  unfold shiftRight at h
  split at h
  · injection h with h
    rw [← h]
    have hpow : (0 : ℤ) < 2 ^ n.toNat := Int.pow_pos (by decide)
    exact Int.ediv_eq_neg_one_of_neg_of_le (by decide) (by omega)
  · rcases hw with rfl | rfl
    · cases h
    · injection h with h
      exact h.symm

/-- Without room for a PSID its field has only ones. -/
theorem psid16_ones (hr : Ranged s f l) (hout : l.psidlen < 0 ∨ 16 < l.psidlen)
    (hw : w = .traps ∨ w = .gives fun _ _ => -1) (h : derive w env s f l = .ok (.rule r)) :
    beValue r.psid16 2 = 65535 := by
  obtain ⟨a, b, _, ha, _, _, _, _, _, hpsid16, _⟩ := derive_printed h
  have hread : ¬PsidRead f l := fun hread => by
    have hlow := hread.2.2.1
    have hhigh := hread.2.1
    omega
  have hpsid : psidOf s f l = -1 := by
    rw [psidOf, if_neg hread]
    exact hr.given (hout.imp le_of_lt id)
  rw [hpsid] at ha
  rw [hpsid16, shiftRight_neg_one hw ha]
  exact beValue_beBytes (n := 2) (by decide)

theorem psid16_zero (hout : 16 < l.psidlen)
    (h : derive (.gives fun _ _ => 0) env s f l = .ok (.rule r)) : beValue r.psid16 2 = 0 := by
  obtain ⟨a, b, _, ha, _, _, _, _, _, hpsid16, _⟩ := derive_printed h
  rw [shiftRight, if_neg (by omega)] at ha
  injection ha with ha
  have hzero : a = 0 := ha.symm
  rw [hpsid16, hzero]
  exact beValue_beBytes (n := 2) (by decide)

theorem derive_gives (env : Env) (hr : Ranged s f l) (hinside : PsidInside s f l)
    (haddr : Invalid s l ∨ AddressInside s f l) (g : ℤ → ℤ → ℤ) :
    ∃ o, derive (.gives g) env s f l = .ok o := by
  obtain ⟨a, ha⟩ := (shift_gives g (psidOf s f l) (16 - l.psidlen)).2
  obtain ⟨b, hb⟩ := (shift_gives g a (16 - l.psidlen)).1
  by_cases hinvalid : Invalid s l
  · exact ⟨_, derive_ok.mpr ⟨a, b, hinside, ha, hb, finish_ok.mpr (Or.inl ⟨hinvalid, rfl⟩)⟩⟩
  · obtain ⟨addr, haddr⟩ :=
      readAddress_gives (valid_of_not_invalid hinvalid) (haddr.resolve_left hinvalid) g
    by_cases hpd : f.pdlen < 0 ∧ ¬s.fmr
    · exact ⟨_, derive_ok.mpr ⟨a, b, hinside, ha, hb,
        finish_ok.mpr (Or.inr ⟨hinvalid, addr, haddr, Or.inl ⟨hpd.1, hpd.2, rfl⟩⟩)⟩⟩
    · obtain ⟨ipv6addr, hipv6⟩ :=
        readIpv6addr_eq hr.found env.legacy addr (beBytes 2 (a % 2 ^ 16).toNat)
      obtain ⟨ranges, hranges⟩ := portsets_gives g l b
      have hpd' : 0 ≤ f.pdlen ∨ s.fmr := by
        by_contra! hcon
        exact hpd hcon
      exact ⟨_, derive_ok.mpr ⟨a, b, hinside, ha, hb, finish_ok.mpr (Or.inr
        ⟨hinvalid, addr, haddr, Or.inr ⟨hpd', ipv6addr, ranges, hipv6, hranges, rfl⟩⟩)⟩⟩

/-- Two machines agree on the PSID only when it fits into 16 bits. -/
theorem psidlen_of_exact (hr : Ranged s f l) (hpd : 0 ≤ f.pdlen)
    (h : ∀ g, Sound (derive (.gives g) env s f l))
    (hrule : derive (.gives fun _ _ => -1) env s f l = .ok (.rule r)) :
    0 ≤ l.psidlen ∧ l.psidlen ≤ 16 := by
  obtain ⟨_, hlengths, hfound⟩ := derive_rule hrule
  have hsound := h fun _ _ => -1
  rw [hrule] at hsound
  have hexact := (hsound (hfound ▸ hpd)).psid
  by_contra hout
  have hout' : l.psidlen < 0 ∨ 16 < l.psidlen := by omega
  rw [psid16_ones hr hout' (Or.inr rfl) hrule, hlengths] at hexact
  rcases hout' with hneg | hlarge
  · rw [Int.toNat_of_nonpos hneg.le] at hexact
    cases hexact
  · obtain ⟨_, _, hinside, _, _, hvalid, haddr, hprint, _⟩ := derive_printed hrule
    have haddress := addressInside_of_readAddress hr (valid_of_not_invalid hvalid) haddr
    obtain ⟨o, ho⟩ := derive_gives env hr hinside (Or.inr haddress) fun _ _ => 0
    have hsound' := h fun _ _ => 0
    rw [ho] at hsound'
    match o with
    | .skipped message =>
      obtain ⟨_, hcheck⟩ := (derive_skipped hr _).mp ⟨message, ho⟩
      rcases hcheck with hinvalid | ⟨_, hnopd, _⟩
      · exact hvalid hinvalid
      · omega
    | .rule r' =>
      obtain ⟨hsettings', hlengths', hfound'⟩ := derive_rule ho
      obtain ⟨hsettings, _, _⟩ := derive_rule hrule
      have hexact' := (hsound' (hfound' ▸ hpd)).psid
      rw [psid16_zero hlarge ho, hlengths', hfound', hsettings'] at hexact'
      rw [hfound, hsettings, ← hexact'] at hexact
      cases hexact

theorem sound_gives_iff (env : Env) (hr : Ranged s f l) :
    (∀ g, Sound (derive (.gives g) env s f l)) ↔ LengthsFit s f l := by
  constructor
  · intro h
    match hrule : derive (.gives fun _ _ => -1) env s f l with
    | .error _ =>
      have hsound := h fun _ _ => -1
      rw [hrule] at hsound
      exact hsound.elim
    | .ok (.skipped message) =>
      obtain ⟨hinside, hcheck⟩ := (derive_skipped hr _).mp ⟨message, hrule⟩
      exact ⟨hinside, hcheck.imp_right fun hand => ⟨hand.1, fun hpd => absurd hand.2.1 (not_lt.mpr hpd)⟩⟩
    | .ok (.rule r) =>
      obtain ⟨_, _, hinside, _, _, hvalid, haddr, _⟩ := derive_printed hrule
      have haddress := addressInside_of_readAddress hr (valid_of_not_invalid hvalid) haddr
      refine ⟨hinside, Or.inr ⟨haddress, fun hpd => ?_⟩⟩
      obtain ⟨hq, hq'⟩ := psidlen_of_exact hr hpd h hrule
      have hsound := h fun _ _ => -1
      rw [hrule] at hsound
      exact (derived_exact_iff hr hpd hq hq' (Or.inr ⟨_, rfl⟩) hrule).mp
        (hsound ((derive_rule hrule).2.2 ▸ hpd))
  · rintro ⟨hinside, hfit⟩ g
    obtain ⟨o, ho⟩ := derive_gives env hr hinside (hfit.imp_right And.left) g
    rw [ho]
    match o with
    | .skipped _ => exact trivial
    | .rule r =>
      intro hpd
      rw [(derive_rule ho).2.2] at hpd
      obtain ⟨_, _, _, _, _, hvalid, _⟩ := derive_printed ho
      have hsplits := (hfit.resolve_left hvalid).2 hpd
      exact (derived_exact_iff hr hpd hsplits.psidlen.1 hsplits.psidlen.2 (Or.inr ⟨_, rfl⟩) ho).mpr hsplits

theorem shift_traps {x n a : ℤ}
    (h : shiftRight .traps x n = .ok a ∨ shiftLeft .traps x n = .ok a) : 0 ≤ n ∧ n < 32 := by
  by_contra hwide
  rcases h with h | h
  · rw [shiftRight, if_neg hwide] at h
    cases h
  · rw [shiftLeft, if_neg hwide] at h
    cases h

theorem portset_inside (hr : Ranged s f l) (hpos : 0 < l.psidlen)
    (hsum : l.offset + l.psidlen ≤ 16) (psid : ℤ) (k : ℕ) :
    ∃ range, portset w l psid k = .ok range := by
  have hoffset := hr.offset
  unfold portset
  rw [shiftLeft_inside w _ (by omega) (by omega), shiftRight_inside w _ (by omega) (by omega),
    shiftLeft_inside w _ (by omega) (by omega)]
  exact ⟨_, rfl⟩

theorem portsetsOf_inside (hr : Ranged s f l) (hpos : 0 < l.psidlen)
    (hsum : l.offset + l.psidlen ≤ 16) (psid : ℤ) (ks : List ℕ) :
    ∃ ranges, portsetsOf w l psid ks = .ok ranges := by
  induction ks with
  | nil => exact ⟨[], rfl⟩
  | cons k ks ih =>
    obtain ⟨range, hrange⟩ := portset_inside (w := w) hr hpos hsum psid k
    obtain ⟨ranges, hranges⟩ := ih
    exact ⟨_, bind_ok.mpr ⟨range, hrange, bind_ok.mpr ⟨ranges, hranges, rfl⟩⟩⟩

/-- On a machine that traps the ranges are printed when the PSID fits behind the offset. -/
theorem portsets_traps (hr : Ranged s f l) (psid : ℤ) :
    (∃ ranges, portsets .traps l psid = .ok ranges) ↔
      (0 < l.psidlen → 0 ≤ psid → l.offset + l.psidlen ≤ 16) := by
  have hoffset := hr.offset
  have hpow : (1 : ℤ) ≤ 2 ^ l.offset.toNat := Int.pow_pos (by decide)
  have hle : (2 : ℤ) ^ l.offset.toNat ≤ 2 ^ 16 := by
    exact_mod_cast Nat.pow_le_pow_right (by decide : 0 < 2) (by omega : l.offset.toNat ≤ 16)
  have hbound : shiftLeft .traps 1 l.offset = .ok (2 ^ l.offset.toNat) := by
    rw [shiftLeft_inside _ _ hoffset.1 (by omega), one_mul, int32_of_small (by omega) (by omega)]
  unfold portsets
  by_cases hprint : 0 < l.psidlen ∧ 0 ≤ psid
  · rw [if_pos hprint]
    simp only [hbound, ok_bind]
    constructor
    · rintro ⟨ranges, h⟩ hpos _
      -- the first of the ranges already has the shift of 1 by what is left
      have hne : ((2 : ℤ) ^ l.offset.toNat).toNat - (if l.offset = 0 then 0 else 1) ≠ 0 := by
        split
        · omega
        · have htwo : (2 : ℤ) ^ 1 ≤ 2 ^ l.offset.toNat := by
            exact_mod_cast Nat.pow_le_pow_right (by decide : 0 < 2) (by omega : 1 ≤ l.offset.toNat)
          omega
      obtain ⟨n, hn⟩ := Nat.exists_eq_succ_of_ne_zero hne
      rw [hn, List.range'_succ] at h
      obtain ⟨range, hrange, _⟩ := bind_ok.mp h
      obtain ⟨x, _, hrange⟩ := bind_ok.mp hrange
      obtain ⟨y, _, hrange⟩ := bind_ok.mp hrange
      obtain ⟨z, hz, _⟩ := bind_ok.mp hrange
      have hinside := (shift_traps (Or.inr hz)).1
      omega
    · intro h
      exact portsetsOf_inside hr hprint.1 (h hprint.1 hprint.2) psid _
  · rw [if_neg hprint]
    exact ⟨fun _ hpos hpsid => absurd ⟨hpos, hpsid⟩ hprint, fun _ => ⟨[], rfl⟩⟩

/-- The PSID is known in the same cases before and behind its shifts. -/
theorem aligned_nonneg {n : ℕ} :
    0 ≤ psidOf s f l / 2 ^ n * 2 ^ n ↔ PsidRead f l ∨ 0 ≤ l.psid := by
  have hpow : (0 : ℤ) < 2 ^ n := Int.pow_pos (by decide)
  have hsign : 0 ≤ psidOf s f l / 2 ^ n * 2 ^ n ↔ 0 ≤ psidOf s f l := by
    constructor
    · intro h
      exact h.trans (Int.ediv_mul_le _ hpow.ne')
    · intro h
      exact Int.mul_nonneg (Int.ediv_nonneg h hpow.le) hpow.le
  rw [hsign]
  unfold psidOf
  by_cases hread : PsidRead f l
  · rw [if_pos hread]
    exact ⟨fun _ => Or.inl hread, fun _ => by exact_mod_cast Nat.zero_le _⟩
  · rw [if_neg hread]
    exact ⟨Or.inr, fun h => h.resolve_left hread⟩

theorem sound_traps_iff (hr : Ranged s f l) :
    Sound (derive .traps env s f l) ↔ LengthsFit s f l ∧ ShiftsInside s f l := by
  obtain ⟨hxlow, hxhigh⟩ := psidOf_range hr
  constructor
  · intro h
    match hrule : derive .traps env s f l with
    | .error _ =>
      rw [hrule] at h
      exact h.elim
    | .ok o =>
      obtain ⟨a, b, hinside, ha, hb, hfinish⟩ := derive_ok.mp hrule
      obtain ⟨hlow, hhigh⟩ := shift_traps (Or.inl ha)
      have hshift := shifts_inside (w := .traps) hxlow (by omega) hlow hhigh
      rw [hshift.1] at ha
      cases ha
      rw [hshift.2] at hb
      cases hb
      rcases finish_ok.mp hfinish with ⟨hinvalid, _⟩ | ⟨hvalid, addr, haddr, hcheck⟩
      · exact ⟨⟨hinside, Or.inl hinvalid⟩, by omega, by omega, Or.inl hinvalid⟩
      have haddress := addressInside_of_readAddress hr (valid_of_not_invalid hvalid) haddr
      have hfour := fun hderived => prefix4len_of_readAddress hderived haddr
      rcases hcheck with ⟨hpd, hfmr, _⟩ | ⟨hpd, _, ranges, _, hranges, rfl⟩
      · refine ⟨⟨hinside, Or.inr ⟨haddress, fun hpd' => absurd hpd (not_lt.mpr hpd')⟩⟩,
          by omega, by omega, Or.inr ⟨hfour, fun hpd' => ?_⟩⟩
        exact absurd hpd' (not_or.mpr ⟨not_le.mpr hpd, hfmr⟩)
      · refine ⟨⟨hinside, Or.inr ⟨haddress, fun hpd' => ?_⟩⟩, by omega, by omega,
          Or.inr ⟨hfour, fun _ hpos hknown => ?_⟩⟩
        · rw [hrule] at h
          have hexact := h hpd'
          have hq : 0 ≤ l.psidlen := by
            by_contra hneg
            have hones := hexact.psid.symm.trans
              (psid16_ones hr (Or.inl (not_le.mp hneg)) (Or.inl rfl) hrule)
            rw [Int.toNat_of_nonpos (not_le.mp hneg).le] at hones
            cases hones
          exact (derived_exact_iff hr hpd' hq (by omega) (Or.inl (hfour (Or.inl hpd'))) hrule).mp hexact
        · exact (portsets_traps hr _).mp ⟨ranges, hranges⟩ hpos (aligned_nonneg.mpr hknown)
  · rintro ⟨⟨hinside, hfit⟩, hlow, hhigh, hshifts⟩
    obtain ⟨ha, hb⟩ := shifts_inside (w := .traps) hxlow (by omega)
      (by omega : 0 ≤ 16 - l.psidlen) (by omega)
    by_cases hinvalid : Invalid s l
    · rw [derive_ok.mpr ⟨_, _, hinside, ha, hb, finish_ok.mpr (Or.inl ⟨hinvalid, rfl⟩)⟩]
      exact trivial
    obtain ⟨haddress, hsplits⟩ := hfit.resolve_left hinvalid
    obtain ⟨hfour, hports⟩ := hshifts.resolve_left hinvalid
    have haddr : ∃ addr, readAddress .traps s f l = .ok addr := by
      by_cases hderived : 0 ≤ f.pdlen ∨ l.ealen = l.psidlen
      · obtain ⟨addr, haddr, _⟩ := readAddress_inside (w := .traps) (valid_of_not_invalid hinvalid)
          hderived haddress (Or.inl (hfour hderived))
        exact ⟨addr, haddr⟩
      · exact ⟨_, if_neg hderived⟩
    obtain ⟨addr, haddr⟩ := haddr
    by_cases hpd : f.pdlen < 0 ∧ ¬s.fmr
    · rw [derive_ok.mpr ⟨_, _, hinside, ha, hb, finish_ok.mpr (Or.inr ⟨hinvalid, addr, haddr,
        Or.inl ⟨hpd.1, hpd.2, rfl⟩⟩)⟩]
      exact trivial
    · have hpd' : 0 ≤ f.pdlen ∨ s.fmr := by
        by_contra! hcon
        exact hpd hcon
      obtain ⟨ipv6addr, hipv6⟩ := readIpv6addr_eq hr.found env.legacy addr
        (beBytes 2 (psidOf s f l / 2 ^ (16 - l.psidlen).toNat % 2 ^ 16).toNat)
      obtain ⟨ranges, hranges⟩ := (portsets_traps hr
        (psidOf s f l / 2 ^ (16 - l.psidlen).toNat * 2 ^ (16 - l.psidlen).toNat)).mpr
          fun hpos hpsid => hports hpd' hpos (aligned_nonneg.mp hpsid)
      have hrule := derive_ok.mpr ⟨_, _, hinside, ha, hb, finish_ok.mpr (Or.inr
        ⟨hinvalid, addr, haddr, Or.inr ⟨hpd', ipv6addr, ranges, hipv6, hranges, rfl⟩⟩)⟩
      rw [hrule]
      intro hpd
      have hsplit := hsplits hpd
      exact (derived_exact_iff hr hpd hsplit.psidlen.1 hsplit.psidlen.2
        (Or.inl (hfour (Or.inl hpd))) hrule).mpr hsplit

/-- Every rule is skipped or derived, whatever the machine gives for a shift that is too
large; and when such a shift traps. -/
def Derives (env : Env) (rule : Str) : Prop := ∀ g, Sound (mapcalc (.gives g) env rule)
def DerivesTrapping (env : Env) (rule : Str) : Prop := Sound (mapcalc .traps env rule)

/-- The options have their values, the prefixes are compared in a number of bits that is
given, and the lengths fit together. -/
def Fitting (fit : Settings → Found → Lengths → Prop) (env : Env) (rule : Str) : Prop :=
  HasValues rule ∧ ∀ s, settings env.libc rule = .ok s → Comparable env s ∧
    ∀ f, search env s = .ok f → fit s f (lengths env.legacy s f.pdlen)

theorem mapcalc_sound {rule : Str} (h : Sound (mapcalc w env rule)) :
    HasValues rule ∧ ∀ s, settings env.libc rule = .ok s → Comparable env s ∧
      ∀ f, search env s = .ok f → Sound (derive w env s f (lengths env.legacy s f.pdlen)) := by
  have hok : ∃ o, mapcalc w env rule = .ok o := by
    match hrun : mapcalc w env rule with
    | .error _ =>
      rw [hrun] at h
      exact h.elim
    | .ok o => exact ⟨o, rfl⟩
  obtain ⟨o, ho⟩ := hok
  obtain ⟨s, hs, hrest⟩ := bind_ok.mp ho
  obtain ⟨f, hf, _⟩ := bind_ok.mp hrest
  refine ⟨(settings_ok _ _).mp ⟨s, hs⟩, fun s' hs' => ?_⟩
  rw [hs] at hs'
  cases hs'
  refine ⟨(search_ok _ _).mp ⟨f, hf⟩, fun f' hf' => ?_⟩
  rw [← mapcalc_eq hs hf']
  exact h

theorem sound_of_fitting {rule : Str} {fit : Settings → Found → Lengths → Prop}
    (h : Fitting fit env rule)
    (hfit : ∀ s f, f.Bounded → fit s f (lengths env.legacy s f.pdlen) →
      Sound (derive w env s f (lengths env.legacy s f.pdlen))) : Sound (mapcalc w env rule) := by
  obtain ⟨hvalues, h⟩ := h
  obtain ⟨s, hs⟩ := (settings_ok env.libc rule).mpr hvalues
  obtain ⟨hcomparable, h⟩ := h s hs
  obtain ⟨f, hf⟩ := (search_ok env s).mpr hcomparable
  rw [mapcalc_eq hs hf]
  exact hfit s f (search_bounded hf) (h f hf)

/-- mapcalc derives addresses inside its objects when the lengths of the rule fit together;
on a machine that traps, the shifts of main are to stay inside too. -/
theorem derives_iff (env : Env) (rule : Str) :
    (Derives env rule ↔ Fitting LengthsFit env rule) ∧
      (DerivesTrapping env rule ↔
        Fitting (fun s f l => LengthsFit s f l ∧ ShiftsInside s f l) env rule) := by
  refine ⟨⟨fun h => ?_, fun h g => ?_⟩, fun h => ?_, fun h => ?_⟩
  · refine ⟨(mapcalc_sound (h fun _ _ => 0)).1, fun s hs => ?_⟩
    refine ⟨((mapcalc_sound (h fun _ _ => 0)).2 s hs).1, fun f hf => ?_⟩
    exact (sound_gives_iff env (lengths_ranged _ s (search_bounded hf))).mp
      fun g => ((mapcalc_sound (h g)).2 s hs).2 f hf
  · exact sound_of_fitting h fun s f hf hfit =>
      (sound_gives_iff env (lengths_ranged _ s hf)).mpr hfit g
  · obtain ⟨hvalues, h⟩ := mapcalc_sound h
    refine ⟨hvalues, fun s hs => ⟨(h s hs).1, fun f hf => ?_⟩⟩
    exact (sound_traps_iff (lengths_ranged _ s (search_bounded hf))).mp ((h s hs).2 f hf)
  · exact sound_of_fitting h fun s f hf hfit => (sound_traps_iff (lengths_ranged _ s hf)).mpr hfit

def faultOf : Except Fault Outcome → Option Fault
  | .error e => some e
  | .ok _ => none

theorem not_sound_of_fault {o : Except Fault Outcome} {e : Fault} (h : faultOf o = some e) :
    ¬Sound o := by
  match o with
  | .error _ => exact id
  | .ok _ => cases h

/-- 48 EA bits and a PSID of one bit: the other 47 bits go into an address of four bytes. -/
theorem long_suffix_written : ¬Derives sampleEnv
    (bytesOf "prefix6len=40,prefix4len=16,ealen=48,psidlen=1,pd=::,pdlen=96") := by
  intro h
  have hfault : faultOf (mapcalc (.gives fun _ _ => 0) sampleEnv
      (bytesOf "prefix6len=40,prefix4len=16,ealen=48,psidlen=1,pd=::,pdlen=96")) =
        some .writeOutside := by decide +kernel
  exact not_sound_of_fault hfault (h fun _ _ => 0)

end Iot7688.Mapcalc
