import Iot7688.Mapcalc

/-!
When the parts of a rule are read inside the delegated prefix, what they are then, and the
search for that prefix. The PSID is at the end of the EA bits, the suffix of the IPv4 address
in front of it. The search compares the first prefix6len bits of every prefix it looks at, so
it needs that number to be one; then every length stays below 129.
-/
namespace Iot7688.Mapcalc

open Lib

variable {w : Wide} {env : Env} {s : Settings} {f : Found} {l : Lengths}

/-- The delegated prefix has no more than 128 bits. -/
def Found.Bounded (f : Found) : Prop := -2 ^ 31 ≤ f.pdlen ∧ f.pdlen ≤ 128

/-- The ranges that the lengths of a rule have. -/
structure Ranged (s : Settings) (f : Found) (l : Lengths) : Prop where
  found : f.Bounded
  offset : 0 ≤ l.offset ∧ l.offset ≤ 16
  ealen : -2 ^ 31 ≤ l.ealen ∧ l.ealen < 2 ^ 31
  psidlen : -2 ^ 31 ≤ l.psidlen ∧ l.psidlen < 2 ^ 31
  psid : -2 ^ 31 ≤ l.psid ∧ l.psid ≤ 65535
  short : 0 ≤ s.prefix6len.val → l.ealen ≤ 128
  split : 0 ≤ s.prefix4len.val → 0 ≤ s.prefix6len.val → 0 ≤ l.ealen → -32 ≤ l.psidlen
  given : l.psidlen ≤ 0 ∨ 16 < l.psidlen → l.psid = -1

theorem offsetOf_range (legacy : Bool) (s : Settings) :
    0 ≤ offsetOf legacy s ∧ offsetOf legacy s ≤ 16 := by
  have hoffset := s.offset.property
  unfold offsetOf
  split_ifs
  all_goals omega

theorem givenPsidlen_range (s : Settings) : -2 ^ 31 ≤ givenPsidlen s ∧ givenPsidlen s ≤ 16 := by
  have hpsidlen := s.psidlen.property
  unfold givenPsidlen
  split_ifs
  all_goals omega

theorem ealenOf_range (s : Settings) (hf : f.Bounded) :
    -2 ^ 31 ≤ ealenOf s f.pdlen ∧ ealenOf s f.pdlen < 2 ^ 31 ∧
      (0 ≤ s.prefix6len.val → ealenOf s f.pdlen ≤ 128) := by
  obtain ⟨hlow, hhigh⟩ := hf
  have hp6 := s.prefix6len.property
  have hea := s.ealen.property
  have hgiven := givenPsidlen_range s
  have hrest := int32_range (f.pdlen - s.prefix6len)
  have hsmall : 0 ≤ s.prefix6len.val → 0 ≤ f.pdlen →
      int32 (f.pdlen - s.prefix6len) = f.pdlen - s.prefix6len := fun h6 hpd =>
    int32_of_small (by omega) (by omega)
  unfold ealenOf
  dsimp only
  split_ifs
  all_goals omega

theorem lengths_ranged (legacy : Bool) (s : Settings) (hf : f.Bounded) :
    Ranged s f (lengths legacy s f.pdlen) := by
  have hoffset := offsetOf_range legacy s
  have hgiven := givenPsidlen_range s
  obtain ⟨hlow, hhigh, hshort⟩ := ealenOf_range s hf
  have hp4 := s.prefix4len.property
  have hpsid := s.psid.property
  unfold lengths
  dsimp only
  by_cases hauto : givenPsidlen s ≤ 0
  · rw [if_pos hauto]
    refine ⟨hf, hoffset, ⟨hlow, hhigh⟩, int32_range _, ⟨by dsimp only; omega, by dsimp only; omega⟩,
      hshort, fun h4 h6 hea => ?_, fun _ => rfl⟩
    have hrest : int32 (32 - s.prefix4len.val) = 32 - s.prefix4len.val :=
      int32_of_small (by omega) (by omega)
    have hlong := hshort h6
    dsimp only at hea ⊢
    rw [hrest, int32_of_small (by omega) (by omega)]
    omega
  · rw [if_neg hauto]
    exact ⟨hf, hoffset, ⟨hlow, hhigh⟩, ⟨hgiven.1, by dsimp only; omega⟩, hpsid, hshort,
      fun _ _ _ => by dsimp only; omega, fun hle => by dsimp only at hle; omega⟩

/-- The PSID is read inside the delegated prefix. -/
def PsidInside (s : Settings) (f : Found) (l : Lengths) : Prop :=
  PsidRead f l → psidAt s.prefix6len l + l.psidlen.toNat < 128

/-- The suffix of the IPv4 address is, and it fits into the address. -/
def AddressInside (s : Settings) (f : Found) (l : Lengths) : Prop :=
  0 ≤ f.pdlen ∨ l.ealen = l.psidlen →
    s.prefix6len.val + (l.ealen - l.psidlen) < 128 ∧ l.ealen - l.psidlen ≤ 32

instance (s : Settings) (f : Found) (l : Lengths) : Decidable (PsidInside s f l) := by
  unfold PsidInside
  infer_instance

instance (s : Settings) (f : Found) (l : Lengths) : Decidable (AddressInside s f l) := by
  unfold AddressInside
  infer_instance

/-- The PSID in front of its shifts. -/
def psidOf (s : Settings) (f : Found) (l : Lengths) : ℤ :=
  if PsidRead f l then
    bitField f.pd (psidAt s.prefix6len l) l.psidlen.toNat * 2 ^ (16 - l.psidlen.toNat)
  else l.psid

/-- A field at the beginning of two bytes. -/
theorem beValue_field {m b : Mem} {i n : ℕ} (hn : n ≤ 16)
    (h : ∀ k, bit m k = if k < n then bit b (i + k) else bit (fun _ => 0) k) :
    beValue m 2 = bitField b i n * 2 ^ (16 - n) := by
  apply Nat.eq_of_testBit_eq
  intro j
  rw [testBit_beValue, Nat.testBit_mul_two_pow, testBit_bitField, h]
  by_cases hj : j < 16
  · by_cases hfield : 16 - n ≤ j
    · have hplace : i + (8 * 2 - 1 - j) = i + n - 1 - (j - (16 - n)) := by omega
      rw [decide_eq_true (by omega : j < 8 * 2), if_pos (by omega), decide_eq_true hfield,
        decide_eq_true (by omega : j - (16 - n) < n), hplace, Bool.true_and, Bool.true_and]
    · rw [if_neg (by omega), decide_eq_false hfield]
      simp [bit]
  · rw [decide_eq_false (by omega : ¬j < 8 * 2),
      decide_eq_false (by omega : ¬j - (16 - n) < n), Bool.false_and, Bool.false_and,
      Bool.and_false]

theorem readPsid_inside (h : PsidInside s f l) :
    readPsid s.prefix6len f l = .ok (psidOf s f l) := by
  unfold readPsid psidOf
  by_cases hread : PsidRead f l
  · have hlen : sizeT l.psidlen = l.psidlen.toNat := sizeT_of_small hread.2.2.1 (by
      have := hread.2.1
      omega)
    have hshort : l.psidlen.toNat ≤ 16 := by
      have := hread.2.1
      omega
    obtain ⟨m, hm, hbits⟩ := bmemcpys64_eq (h hread) hshort (by decide : 2 ≤ 7) (fun _ => 0) f.pd
    rw [if_pos hread, if_pos hread, hlen, hm, ok_bind, beValue_field hshort hbits]
    rfl
  · rw [if_neg hread, if_neg hread]

theorem psidInside_of_readPsid {x : ℤ} (h : readPsid s.prefix6len f l = .ok x) :
    PsidInside s f l := by
  intro hread
  have hlen : sizeT l.psidlen = l.psidlen.toNat := sizeT_of_small hread.2.2.1 (by
    have := hread.2.1
    omega)
  rw [readPsid, if_pos hread, hlen] at h
  obtain ⟨m, hm, _⟩ := bind_ok.mp h
  exact (bmemcpys64_bounds (sizeT_lt _) hm).1

/-- The rule passes the first check. -/
structure Valid (s : Settings) (l : Lengths) : Prop where
  prefix4len : 0 ≤ s.prefix4len.val
  prefix6len : 0 ≤ s.prefix6len.val
  ealen : 0 ≤ l.ealen
  psidlen : l.psidlen ≤ l.ealen

theorem valid_of_not_invalid (h : ¬Invalid s l) : Valid s l := by
  unfold Invalid at h
  exact ⟨by omega, by omega, by omega, by omega⟩

/-- The IPv4 address: its prefix, then the suffix from the delegated prefix. -/
def IsAddress (s : Settings) (f : Found) (l : Lengths) (m : Mem) : Prop :=
  ∀ i, i < 32 → bit m i =
    if i < s.prefix4len.val.toNat then bit s.ipv4prefix i
    else decide (i - s.prefix4len.val.toNat < (l.ealen - l.psidlen).toNat) &&
      bit f.pd (s.prefix6len.val.toNat + (i - s.prefix4len.val.toNat))

theorem addressInside_of_readAddress (hr : Ranged s f l) (hv : Valid s l) {m : Mem}
    (h : readAddress w s f l = .ok m) : AddressInside s f l := by
  intro hderived
  have hp6 := s.prefix6len.property
  have hp6' := hv.prefix6len
  have hea := hr.short hv.prefix6len
  have hsplit := hr.split hv.prefix4len hv.prefix6len hv.ealen
  have hle := hv.psidlen
  rw [readAddress, if_pos hderived] at h
  obtain ⟨m, hm, _⟩ := bind_ok.mp h
  obtain ⟨hread, hwrite⟩ := bmemcpys64_bounds (sizeT_lt _) hm
  rw [sizeT_of_small (by omega) (by omega)] at hread hwrite
  rw [sizeT_of_small (by omega) (by omega)] at hread
  omega

theorem readAddress_inside (hv : Valid s l)
    (hderived : 0 ≤ f.pdlen ∨ l.ealen = l.psidlen) (hin : AddressInside s f l)
    (hw : s.prefix4len.val < 32 ∨ ∃ g, w = .gives g) :
    ∃ m, readAddress w s f l = .ok m ∧ IsAddress s f l m := by
  obtain ⟨hread, hwrite⟩ := hin hderived
  have hp4 := s.prefix4len.property
  have hp4' := hv.prefix4len
  have hp6 := s.prefix6len.property
  have hp6' := hv.prefix6len
  have hle := hv.psidlen
  have hlen : sizeT (l.ealen - l.psidlen) = (l.ealen - l.psidlen).toNat :=
    sizeT_of_small (by omega) (by omega)
  have hfrom : sizeT s.prefix6len = s.prefix6len.val.toNat := sizeT_of_small (by omega) (by omega)
  have hfour : sizeT s.prefix4len = s.prefix4len.val.toNat := sizeT_of_small (by omega) (by omega)
  obtain ⟨m, hm, hbits⟩ := bmemcpys64_eq (f := s.prefix6len.val.toNat)
    (n := (l.ealen - l.psidlen).toNat) (by omega) (by omega) (by decide : 4 ≤ 7) (fun _ => 0) f.pd
  have hcopy (a : Mem) : bmemcpy 4 a 4 s.ipv4prefix s.prefix4len.val.toNat =
      .ok (copyBits a s.ipv4prefix s.prefix4len.val.toNat) := bmemcpy_eq (by omega) (by omega) _ _
  rw [readAddress, if_pos hderived, hlen, hfrom, hfour, hm, ok_bind]
  by_cases hall : s.prefix4len.val < 32
  · have hvalue : ((beValue m 4 : ℤ) / 2 ^ s.prefix4len.val.toNat % 2 ^ 32).toNat =
        beValue m 4 / 2 ^ s.prefix4len.val.toNat := by
      have hlt : beValue m 4 / 2 ^ s.prefix4len.val.toNat < 2 ^ 32 :=
        (Nat.div_le_self _ _).trans_lt (beValue_lt m 4)
      have hcast : ((beValue m 4 : ℤ) / 2 ^ s.prefix4len.val.toNat % 2 ^ 32) =
          ((beValue m 4 / 2 ^ s.prefix4len.val.toNat % 2 ^ 32 : ℕ) : ℤ) := by
        push_cast
        rfl
      rw [hcast, Int.toNat_natCast, Nat.mod_eq_of_lt hlt]
    rw [shiftRight_inside w _ hp4' hall, ok_bind, hvalue, hcopy]
    refine ⟨_, rfl, fun i hi => ?_⟩
    rw [bit_copyBits]
    by_cases hfront : i < s.prefix4len.val.toNat
    · rw [if_pos hfront, if_pos hfront]
    · rw [if_neg hfront, if_neg hfront, bit_shiftRight m 4 _ (by omega),
        decide_eq_true (not_lt.mp hfront), Bool.true_and, hbits]
      split
      · next h => rw [decide_eq_true h, Bool.true_and]
      · next h =>
        rw [decide_eq_false h, Bool.false_and]
        simp [bit]
  · obtain ⟨g, rfl⟩ := hw.resolve_left hall
    have hwide : shiftRight (.gives g) (beValue m 4) s.prefix4len =
        .ok (g (beValue m 4) s.prefix4len) := if_neg fun h => hall h.2
    rw [hwide, ok_bind, hcopy]
    refine ⟨_, rfl, fun i hi => ?_⟩
    rw [bit_copyBits, if_pos (by omega), if_pos (by omega)]

/-- A shift by the whole width is one that traps. -/
theorem prefix4len_of_readAddress (hderived : 0 ≤ f.pdlen ∨ l.ealen = l.psidlen) {m : Mem}
    (h : readAddress .traps s f l = .ok m) : s.prefix4len.val < 32 := by
  rw [readAddress, if_pos hderived] at h
  obtain ⟨m, _, h⟩ := bind_ok.mp h
  obtain ⟨y, hshift, _⟩ := bind_ok.mp h
  by_contra hwide
  rw [shiftRight, if_neg fun h => hwide h.2] at hshift
  cases hshift

theorem readIpv6addr_eq (hf : f.Bounded) (legacy : Bool) (ipv4addr psid16 : Mem) :
    ∃ m, readIpv6addr legacy f ipv4addr psid16 = .ok m := by
  unfold readIpv6addr
  by_cases hpd : 0 ≤ f.pdlen
  · have hlen : sizeT f.pdlen = f.pdlen.toNat := sizeT_of_small hpd (by have := hf.2; omega)
    have hbound : f.pdlen.toNat ≤ 8 * 16 := by
      have := hf.2
      omega
    rw [if_pos hpd, hlen, bmemcpy_eq hbound hbound]
    exact ⟨_, rfl⟩
  · rw [if_neg hpd]
    exact ⟨_, rfl⟩

theorem shift_gives (g : ℤ → ℤ → ℤ) (x n : ℤ) :
    (∃ y, shiftLeft (.gives g) x n = .ok y) ∧ ∃ y, shiftRight (.gives g) x n = .ok y := by
  unfold shiftLeft shiftRight
  split
  · exact ⟨⟨_, rfl⟩, _, rfl⟩
  · exact ⟨⟨_, rfl⟩, _, rfl⟩

theorem portset_gives (g : ℤ → ℤ → ℤ) (l : Lengths) (psid : ℤ) (k : ℕ) :
    ∃ range, portset (.gives g) l psid k = .ok range := by
  obtain ⟨a, ha⟩ := (shift_gives g k (16 - l.offset)).1
  obtain ⟨b, hb⟩ := (shift_gives g psid l.offset).2
  obtain ⟨c, hc⟩ := (shift_gives g 1 (16 - l.offset - l.psidlen)).1
  unfold portset
  rw [ha, hb, hc]
  exact ⟨_, rfl⟩

theorem portsetsOf_gives (g : ℤ → ℤ → ℤ) (l : Lengths) (psid : ℤ) (ks : List ℕ) :
    ∃ ranges, portsetsOf (.gives g) l psid ks = .ok ranges := by
  induction ks with
  | nil => exact ⟨[], rfl⟩
  | cons k ks ih =>
    obtain ⟨range, hrange⟩ := portset_gives g l psid k
    obtain ⟨ranges, hranges⟩ := ih
    exact ⟨_, bind_ok.mpr ⟨range, hrange, bind_ok.mpr ⟨ranges, hranges, rfl⟩⟩⟩

theorem portsets_gives (g : ℤ → ℤ → ℤ) (l : Lengths) (psid : ℤ) :
    ∃ ranges, portsets (.gives g) l psid = .ok ranges := by
  unfold portsets
  split
  · obtain ⟨bound, hbound⟩ := (shift_gives g 1 l.offset).1
    dsimp only
    rw [hbound]
    exact portsetsOf_gives g l psid _
  · exact ⟨[], rfl⟩

/-- The steps of a rule in front of the checks. -/
theorem derive_ok {o : Outcome} : derive w env s f l = .ok o ↔
    ∃ a b, PsidInside s f l ∧ shiftRight w (psidOf s f l) (16 - l.psidlen) = .ok a ∧
      shiftLeft w a (16 - l.psidlen) = .ok b ∧
        finish w env s f l (beBytes 2 (a % 2 ^ 16).toNat) b = .ok o := by
  unfold derive
  constructor
  · intro h
    obtain ⟨x, hx, h⟩ := bind_ok.mp h
    have hinside := psidInside_of_readPsid hx
    rw [readPsid_inside hinside] at hx
    cases hx
    obtain ⟨a, ha, h⟩ := bind_ok.mp h
    obtain ⟨b, hb, h⟩ := bind_ok.mp h
    exact ⟨a, b, hinside, ha, hb, h⟩
  · rintro ⟨a, b, hinside, ha, hb, h⟩
    rw [readPsid_inside hinside, ok_bind, ha, ok_bind, hb, ok_bind]
    exact h

/-- The outcomes of a rule behind its checks. -/
theorem finish_ok {psid16 : Mem} {psid : ℤ} {o : Outcome} :
    finish w env s f l psid16 psid = .ok o ↔
      Invalid s l ∧ o = .skipped "Skipping invalid or incomplete rule: %s\n" ∨
      ¬Invalid s l ∧ ∃ addr, readAddress w s f l = .ok addr ∧
        (f.pdlen < 0 ∧ ¬s.fmr ∧ o = .skipped "Skipping non-FMR without matching PD: %s\n" ∨
        (0 ≤ f.pdlen ∨ s.fmr) ∧ ∃ ipv6addr ranges,
          readIpv6addr env.legacy f addr psid16 = .ok ipv6addr ∧
          portsets w l psid = .ok ranges ∧
          o = .rule ⟨s, l, f, addr, addr4len s f l, psid, psid16, ipv6addr, ranges⟩) := by
  unfold finish
  by_cases hinvalid : Invalid s l
  · rw [if_pos hinvalid]
    constructor
    · intro h
      cases h
      exact Or.inl ⟨hinvalid, rfl⟩
    · rintro (⟨_, rfl⟩ | ⟨h, _⟩)
      · rfl
      · exact absurd hinvalid h
  · rw [if_neg hinvalid, bind_ok]
    constructor
    · rintro ⟨addr, haddr, h⟩
      refine Or.inr ⟨hinvalid, addr, haddr, ?_⟩
      by_cases hpd : f.pdlen < 0 ∧ ¬s.fmr
      · rw [if_pos hpd] at h
        cases h
        exact Or.inl ⟨hpd.1, hpd.2, rfl⟩
      · rw [if_neg hpd] at h
        obtain ⟨ipv6addr, hipv6, h⟩ := bind_ok.mp h
        obtain ⟨ranges, hranges, h⟩ := bind_ok.mp h
        cases h
        refine Or.inr ⟨?_, ipv6addr, ranges, hipv6, hranges, rfl⟩
        by_contra! hcon
        exact hpd ⟨hcon.1, hcon.2⟩
    · rintro (⟨h, _⟩ | ⟨_, addr, haddr, h⟩)
      · exact absurd h hinvalid
      · refine ⟨addr, haddr, ?_⟩
        rcases h with ⟨hpd, hfmr, rfl⟩ | ⟨hpd, ipv6addr, ranges, hipv6, hranges, rfl⟩
        · rw [if_pos ⟨hpd, hfmr⟩]
          rfl
        · rw [if_neg fun h => hpd.elim (not_le.mpr h.1) h.2, hipv6, ok_bind, hranges]
          rfl

variable {env : Env} {s : Settings}

section

variable (libc : Libc) ( ipv6prefix : Mem) {prefix6len : ℤ} (lw4o6 : Bool)

theorem bmemcmp_eq {bits : ℕ} (h : bits ≤ 128) (a b : Mem) :
    ∃ r, bmemcmp 16 a b bits = .ok r := by
  unfold bmemcmp
  dsimp only
  rw [if_neg (not_lt.mpr (touched_le.mpr h))]
  exact ⟨_, rfl⟩

/-- The prefix of an entry is looked at when it is complete. -/
def Delegated.Complete (d : Delegated) : Prop := d.address.isSome ∧ d.mask.isSome

instance (d : Delegated) : Decidable d.Complete := by
  unfold Delegated.Complete
  infer_instance

theorem matchEntry_incomplete {d : Delegated} (h : ¬d.Complete) (f : Found) :
    matchEntry libc ipv6prefix prefix6len lw4o6 f d = .ok f := by
  obtain ⟨address, mask⟩ := d
  cases address with
  | none => rfl
  | some text =>
    cases mask with
    | none => rfl
    | some mask => exact absurd ⟨rfl, rfl⟩ h

/-- Without a number of bits the first complete entry is compared in too many. -/
theorem matchEntry_blind (hlow : -2 ^ 31 ≤ prefix6len) (hneg : prefix6len < 0) {f : Found}
    (hf : f.pdlen < 0) {d : Delegated} (hd : d.Complete) :
    matchEntry libc ipv6prefix prefix6len lw4o6 f d = .error .readOutside := by
  obtain ⟨address, mask⟩ := d
  obtain ⟨text, rfl⟩ := Option.isSome_iff_exists.mp hd.1
  obtain ⟨mask, rfl⟩ := Option.isSome_iff_exists.mp hd.2
  have hmask : (0 : ℤ) ≤ if lw4o6 ∧ mask.val = 128 then 64 else (mask.val : ℤ) := by
    split
    · decide
    · omega
  have hhuge : 16 < touched (sizeT prefix6len) := by
    have hsize := sizeT_of_neg hlow hneg
    by_contra hle
    have := touched_le.mp (not_lt.mp hle)
    omega
  have hcompare (a b : Mem) : equalWhen (f.pdlen < _ ∧ prefix6len ≤ _) a b (sizeT prefix6len) =
      .error .readOutside :=
    (if_pos (decide_eq_true ⟨lt_of_lt_of_le hf hmask, hneg.le.trans hmask⟩)).trans (if_pos hhuge)
  unfold matchEntry
  dsimp only
  rw [hcompare]
  rfl

theorem equalWhen_eq (c : Bool) {bits : ℕ} (h : c = true → bits ≤ 128) (a b : Mem) :
    ∃ r, equalWhen c a b bits = .ok r := by
  cases c with
  | false => exact ⟨false, rfl⟩
  | true => exact bmemcmp_eq (h rfl) a b

/-- With a number of bits every entry can be compared. -/
theorem matchEntry_inside (hlow : 0 ≤ prefix6len) (hhigh : prefix6len ≤ 128) {f : Found}
    (hf : f.Bounded) (d : Delegated) :
    ∃ g, matchEntry libc ipv6prefix prefix6len lw4o6 f d = .ok g ∧ g.Bounded ∧
      g.iface = f.iface := by
  by_cases hd : d.Complete
  · obtain ⟨address, mask⟩ := d
    obtain ⟨text, rfl⟩ := Option.isSome_iff_exists.mp hd.1
    obtain ⟨mask, rfl⟩ := Option.isSome_iff_exists.mp hd.2
    unfold matchEntry
    dsimp only
    generalize hmask : (if lw4o6 ∧ mask.val = 128 then 64 else (mask.val : ℤ)) = bits
    have hrange : 0 ≤ bits ∧ bits ≤ 128 := by
      have := mask.isLt
      subst hmask
      split
      · decide
      · omega
    have hbits : sizeT bits = bits.toNat := sizeT_of_small hrange.1 (by omega)
    have hlen : sizeT prefix6len = prefix6len.toNat := sizeT_of_small hlow (by omega)
    rw [hbits, hlen]
    obtain ⟨first, hfirst⟩ := equalWhen_eq (f.pdlen < bits ∧ prefix6len ≤ bits)
      (fun _ => (by omega : prefix6len.toNat ≤ 128)) ((libc.pton6 text).getD fun _ => 0) ipv6prefix
    obtain ⟨second, hsecond⟩ := equalWhen_eq (lw4o6 ∧ f.pdlen < prefix6len ∧ bits < prefix6len)
      (fun _ => (by omega : bits.toNat ≤ 128)) ((libc.pton6 text).getD fun _ => 0) ipv6prefix
    rw [hfirst, ok_bind]
    cases first with
    | true =>
      rw [if_pos rfl, bmemcpy_eq (by omega) (by omega), ok_bind]
      exact ⟨_, rfl, ⟨by dsimp only; omega, hrange.2⟩, rfl⟩
    | false =>
      rw [if_neg Bool.false_ne_true, hsecond, ok_bind]
      cases second with
      | true =>
        rw [if_pos rfl, bmemcpy_eq (by omega) (by omega), ok_bind]
        exact ⟨_, rfl, ⟨by dsimp only; omega, hhigh⟩, rfl⟩
      | false => exact ⟨f, rfl, hf, rfl⟩
  · exact ⟨f, matchEntry_incomplete libc ipv6prefix lw4o6 hd f, hf, rfl⟩

theorem foldlM_inside (hlow : 0 ≤ prefix6len) (hhigh : prefix6len ≤ 128) (entries : List Delegated)
    {f : Found} (hf : f.Bounded) :
    ∃ g, entries.foldlM (matchEntry libc ipv6prefix prefix6len lw4o6) f = .ok g ∧ g.Bounded ∧
      g.iface = f.iface := by
  induction entries generalizing f with
  | nil => exact ⟨f, rfl, hf, rfl⟩
  | cons d entries ih =>
    obtain ⟨g, hg, hgin, hname⟩ := matchEntry_inside libc ipv6prefix lw4o6 hlow hhigh hf d
    obtain ⟨g', hg', hin', hname'⟩ := ih hgin
    rw [List.foldlM_cons, hg]
    exact ⟨g', hg', hin', hname'.trans hname⟩

theorem foldlM_blind (hlow : -2 ^ 31 ≤ prefix6len) (hneg : prefix6len < 0) {f : Found}
    (hf : f.pdlen < 0) (entries : List Delegated) :
    entries.foldlM (matchEntry libc ipv6prefix prefix6len lw4o6) f =
      if ∀ d ∈ entries, ¬d.Complete then .ok f else .error .readOutside := by
  induction entries with
  | nil => exact (if_pos fun d hd => absurd hd List.not_mem_nil).symm
  | cons d entries ih =>
    rw [List.foldlM_cons]
    by_cases hd : d.Complete
    · rw [matchEntry_blind libc ipv6prefix lw4o6 hlow hneg hf hd,
        if_neg fun h => h d (List.mem_cons_self ..) hd]
      rfl
    · rw [matchEntry_incomplete libc ipv6prefix lw4o6 hd, ok_bind, ih]
      have hall : (∀ d' ∈ d :: entries, ¬d'.Complete) ↔ ∀ d' ∈ entries, ¬d'.Complete := by
        rw [List.forall_mem_cons]
        exact and_iff_right hd
      by_cases h : ∀ d' ∈ entries, ¬d'.Complete
      · rw [if_pos h, if_pos (hall.mpr h)]
      · rw [if_neg h, if_neg fun h' => h (hall.mp h')]

end

/-- The entries of an interface that are looked at. -/
def entriesOf (lw4o6 : Bool) (c : Interface) : List Delegated :=
  c.prefixes.getD [] ++ if lw4o6 then c.addresses.getD [] else []

/-- The interface is asked for. -/
def Asked (iface : Str) (c : Interface) : Prop :=
  ∃ name, c.name = some name ∧ (iface = bytesOf "*" ∨ iface = name)

section

variable (libc : Libc) ( ipv6prefix : Mem) {prefix6len : ℤ} (lw4o6 : Bool)

theorem findPd_asked {f : Found} {c : Interface} {name : Str} (hname : c.name = some name)
    (h : f.iface = bytesOf "*" ∨ f.iface = name) (dump : List Interface) :
    findPd libc ipv6prefix prefix6len lw4o6 f (c :: dump) =
      ((entriesOf lw4o6 c).foldlM (matchEntry libc ipv6prefix prefix6len lw4o6) f >>= fun g =>
        if 0 ≤ g.pdlen then .ok { g with iface := name }
        else findPd libc ipv6prefix prefix6len lw4o6 g dump) := by
  have hasked : ¬(f.iface ≠ bytesOf "*" ∧ f.iface ≠ name) := fun hand => h.elim hand.1 hand.2
  rw [findPd, hname]
  dsimp only
  rw [if_neg hasked]
  unfold matchPrefix entriesOf
  rw [List.foldlM_append]
  cases lw4o6 with
  | true =>
    simp only [if_true, bind_assoc]
    rfl
  | false =>
    simp only [Bool.false_eq_true, if_false, List.foldlM_nil, bind_assoc, pure_bind]
    rfl

theorem findPd_other {f : Found} {c : Interface} (h : ¬Asked f.iface c) (dump : List Interface) :
    findPd libc ipv6prefix prefix6len lw4o6 f (c :: dump) =
      findPd libc ipv6prefix prefix6len lw4o6 f dump := by
  rw [findPd]
  match hname : c.name with
  | none => rfl
  | some name =>
    dsimp only
    refine if_pos ⟨fun hany => h ⟨name, hname, Or.inl hany⟩, fun hthis => h ⟨name, hname, Or.inr hthis⟩⟩

theorem findPd_inside (hlow : 0 ≤ prefix6len) (hhigh : prefix6len ≤ 128) (dump : List Interface)
    {f : Found} (hf : f.Bounded) :
    ∃ g, findPd libc ipv6prefix prefix6len lw4o6 f dump = .ok g ∧ g.Bounded := by
  induction dump generalizing f with
  | nil => exact ⟨f, rfl, hf⟩
  | cons c dump ih =>
    by_cases hasked : Asked f.iface c
    · obtain ⟨name, hname, hiface⟩ := hasked
      obtain ⟨g, hg, hgin, _⟩ :=
        foldlM_inside libc ipv6prefix lw4o6 hlow hhigh (entriesOf lw4o6 c) hf
      rw [findPd_asked libc ipv6prefix lw4o6 hname hiface, hg, ok_bind]
      by_cases hfound : 0 ≤ g.pdlen
      · rw [if_pos hfound]
        exact ⟨_, rfl, hgin⟩
      · rw [if_neg hfound]
        exact ih hgin
    · rw [findPd_other libc ipv6prefix lw4o6 hasked]
      exact ih hf

theorem findPd_blind (hlow : -2 ^ 31 ≤ prefix6len) (hneg : prefix6len < 0) {f : Found}
    (hf : f.pdlen < 0) (dump : List Interface) :
    findPd libc ipv6prefix prefix6len lw4o6 f dump = .ok f ∧
        (∀ c ∈ dump, Asked f.iface c → ∀ d ∈ entriesOf lw4o6 c, ¬d.Complete) ∨
      findPd libc ipv6prefix prefix6len lw4o6 f dump = .error .readOutside ∧
        ¬∀ c ∈ dump, Asked f.iface c → ∀ d ∈ entriesOf lw4o6 c, ¬d.Complete := by
  induction dump with
  | nil => exact Or.inl ⟨rfl, fun c hc => absurd hc List.not_mem_nil⟩
  | cons c dump ih =>
    by_cases hasked : Asked f.iface c
    · obtain ⟨name, hname, hiface⟩ := id hasked
      rw [findPd_asked libc ipv6prefix lw4o6 hname hiface,
        foldlM_blind libc ipv6prefix lw4o6 hlow hneg hf, List.forall_mem_cons]
      by_cases hnone : ∀ d ∈ entriesOf lw4o6 c, ¬d.Complete
      · rw [if_pos hnone, ok_bind, if_neg (not_le.mpr hf)]
        exact ih.imp (fun h => ⟨h.1, fun _ => hnone, h.2⟩) fun h => ⟨h.1, fun hand => h.2 hand.2⟩
      · rw [if_neg hnone]
        exact Or.inr ⟨rfl, fun hand => hnone (hand.1 hasked)⟩
    · rw [findPd_other libc ipv6prefix lw4o6 hasked, List.forall_mem_cons]
      exact ih.imp (fun h => ⟨h.1, fun hand => absurd hand hasked, h.2⟩)
        fun h => ⟨h.1, fun hand => h.2 hand.2⟩

end

/-- No prefix is compared in a number of bits that the rule does not give. -/
def Comparable (env : Env) (s : Settings) : Prop :=
  0 ≤ s.prefix6len.val ∨ 0 ≤ s.pdlen.val ∨
    ∀ c ∈ env.dump, Asked env.iface c → ∀ d ∈ entriesOf s.lw4o6 c, ¬d.Complete

theorem search_ok (env : Env) (s : Settings) :
    (∃ f, search env s = .ok f) ↔ Comparable env s := by
  have hpd := s.pdlen.property
  have hp6 := s.prefix6len.property
  unfold search Comparable
  by_cases hgiven : s.pdlen.val < 0
  · rw [if_pos hgiven]
    by_cases hlen : 0 ≤ s.prefix6len.val
    · obtain ⟨g, hg, _⟩ := findPd_inside env.libc s.ipv6prefix s.lw4o6 hlen hp6.2 env.dump
        (f := ⟨s.pdlen, s.pd, env.iface⟩) hpd
      exact ⟨fun _ => Or.inl hlen, fun _ => ⟨g, hg⟩⟩
    · rcases findPd_blind env.libc s.ipv6prefix s.lw4o6 hp6.1 (not_le.mp hlen)
        (f := ⟨s.pdlen, s.pd, env.iface⟩) hgiven env.dump with h | h
      · exact ⟨fun _ => Or.inr (Or.inr h.2), fun _ => ⟨_, h.1⟩⟩
      · refine ⟨fun ⟨f, hf⟩ => ?_, fun hor => ?_⟩
        · rw [h.1] at hf
          cases hf
        · exact absurd ((hor.resolve_left hlen).resolve_left (not_le.mpr hgiven)) h.2
  · rw [if_neg hgiven]
    exact ⟨fun _ => Or.inr (Or.inl (not_lt.mp hgiven)), fun _ => ⟨_, rfl⟩⟩

theorem search_bounded {f : Found} (h : search env s = .ok f) : f.Bounded := by
  have hpd := s.pdlen.property
  have hp6 := s.prefix6len.property
  unfold search at h
  by_cases hgiven : s.pdlen.val < 0
  · rw [if_pos hgiven] at h
    by_cases hlen : 0 ≤ s.prefix6len.val
    · obtain ⟨g, hg, hgin⟩ := findPd_inside env.libc s.ipv6prefix s.lw4o6 hlen hp6.2 env.dump
        (f := ⟨s.pdlen, s.pd, env.iface⟩) hpd
      rw [hg] at h
      cases h
      exact hgin
    · rcases findPd_blind env.libc s.ipv6prefix s.lw4o6 hp6.1 (not_le.mp hlen)
        (f := ⟨s.pdlen, s.pd, env.iface⟩) hgiven env.dump with hsame | herr
      · rw [hsame.1] at h
        cases h
        exact hpd
      · rw [herr.1] at h
        cases h
  · rw [if_neg hgiven] at h
    cases h
    exact hpd

/-- The options that read a value have one. -/
def HasValues (rule : Str) : Prop :=
  ∀ text ∈ subopts rule, ∀ t, getsubopt text = some (t, none) →
    t = .type ∨ t = .fmr ∨ t = .dmr ∨ t = .br

theorem applyOption_ok (libc : Libc) (s : Settings) (text : Str) :
    (∃ s', applyOption libc s text = .ok s') ↔
      ∀ t, getsubopt text = some (t, none) → t = .type ∨ t = .fmr ∨ t = .dmr ∨ t = .br := by
  unfold applyOption
  match getsubopt text with
  | none => exact ⟨fun _ t h => (by cases h), fun _ => ⟨s, rfl⟩⟩
  | some (t, some value) =>
    refine ⟨fun _ t' h => (by cases h), fun _ => ?_⟩
    cases t <;> exact ⟨_, rfl⟩
  | some (t, none) =>
    constructor
    · rintro ⟨s', h⟩ t' ht
      cases ht
      cases t <;> first | (cases h; done) | simp
    · intro h
      rcases h t rfl with rfl | rfl | rfl | rfl
      all_goals exact ⟨_, rfl⟩

theorem settings_ok (libc : Libc) (rule : Str) :
    (∃ s, settings libc rule = .ok s) ↔ HasValues rule := by
  unfold settings HasValues
  generalize Settings.init = s
  generalize subopts rule = texts
  induction texts generalizing s with
  | nil => exact ⟨fun _ text h => absurd h List.not_mem_nil, fun _ => ⟨s, rfl⟩⟩
  | cons text texts ih =>
    rw [List.foldlM_cons, List.forall_mem_cons, ← applyOption_ok libc s text]
    constructor
    · rintro ⟨s', h⟩
      obtain ⟨s'', hfirst, hrest⟩ := bind_ok.mp h
      exact ⟨⟨s'', hfirst⟩, (ih s'').mp ⟨s', hrest⟩⟩
    · rintro ⟨⟨s'', hfirst⟩, hrest⟩
      obtain ⟨s', hs'⟩ := (ih s'').mpr hrest
      exact ⟨s', bind_ok.mpr ⟨s'', hfirst, hs'⟩⟩

end Iot7688.Mapcalc
