import Iot7688.MapcalcRule
import Mathlib.Order.CompletePartialOrder

/-!
The port sets. With the offset and the PSID in 16 bits, the ranges of a rule are the ports
that have its PSID behind the offset, so two PSIDs share no port. A rule whose offset and
PSID need more bits is not refused.
-/
namespace Iot7688.Mapcalc

open Lib

variable {w : Wide} {env : Env} {s : Settings} {f : Found} {l : Lengths} {o q : ℕ}

/-- The ports of some ranges. -/
def covered (ranges : List (ℤ × ℤ)) : Set ℕ := {p | ∃ g ∈ ranges, g.1 ≤ p ∧ p ≤ g.2}

/-- The ports that MAP gives away: with an offset, not the ones whose first bits are zeros. -/
def ports (o : ℕ) : Set ℕ := {p | 1 ≤ p ∧ p ≤ 65535 ∧ (0 < o → p / 2 ^ (16 - o) ≠ 0)}

/-- The ports with a PSID of q bits behind the first o bits. -/
def portsWith (o q psid : ℕ) : Set ℕ := {p ∈ ports o | p / 2 ^ (16 - o - q) % 2 ^ q = psid}

/-- What is printed for a PSID. -/
def printed (w : Wide) (l : Lengths) (psid : ℕ) : Set ℕ :=
  {p | ∃ ranges, portsets w l (psid * 2 ^ (16 - l.psidlen.toNat) : ℕ) = .ok ranges ∧
    p ∈ covered ranges}

/-- The lengths of a port set that fits into a port. -/
structure Fits (l : Lengths) (o q : ℕ) : Prop where
  offset : l.offset = o
  psidlen : l.psidlen = q
  positive : 0 < q
  sum : o + q ≤ 16

theorem covered_append (a b : List (ℤ × ℤ)) : covered (a ++ b) = covered a ∪ covered b := by
  ext p
  simp only [covered, List.mem_append, Set.mem_ofPred_eq, Set.mem_union, or_and_right, exists_or]

theorem int32_natCast {n : ℕ} (h : n ≤ 2 ^ 16) : int32 n = n := by
  have hcast : (n : ℤ) ≤ 2 ^ 16 := by exact_mod_cast h
  exact int32_of_small (by omega) (by omega)

/-- The range of the ports with the same first bits, without port 0. -/
theorem portset_fits (h : Fits l o q) {psid k : ℕ} (hk : k < 2 ^ o) (hpsid : psid < 2 ^ q) :
    ∃ range, portset w l (psid * 2 ^ (16 - q) : ℕ) k = .ok range ∧
      covered range.toList = {p | 1 ≤ p ∧ p / 2 ^ (16 - o - q) = k * 2 ^ q + psid} := by
  obtain ⟨ho, hq, hpos, hsum⟩ := h
  have hr : 16 - q = 16 - o - q + o := by omega
  have hro : 16 - o = 16 - o - q + q := by omega
  have hpow : 2 ^ (16 - o) = 2 ^ (16 - o - q) * 2 ^ q := by
    rw [← Nat.pow_add, ← hro]
  have hsixteen : 2 ^ 16 = 2 ^ o * 2 ^ (16 - o) := by
    rw [← Nat.pow_add]
    congr 1
    omega
  have hunit : 2 ^ (16 - o - q) ≤ 2 ^ 16 := Nat.pow_le_pow_right (by decide) (by omega)
  have hblock : k * 2 ^ (16 - o) < 2 ^ 16 := by
    rw [hsixteen]
    exact (Nat.mul_lt_mul_right (Nat.two_pow_pos _)).mpr hk
  have hinner : psid * 2 ^ (16 - o - q) < 2 ^ (16 - o) := by
    rw [hpow, Nat.mul_comm]
    exact (Nat.mul_lt_mul_left (Nat.two_pow_pos _)).mpr hpsid
  have hfirst : shiftLeft w k (16 - l.offset) = .ok ((k * 2 ^ (16 - o) : ℕ) : ℤ) := by
    have hn : ((16 : ℤ) - o).toNat = 16 - o := by omega
    have hcast : (k : ℤ) * 2 ^ (16 - o) = ((k * 2 ^ (16 - o) : ℕ) : ℤ) := by push_cast; rfl
    rw [ho, shiftLeft_inside w _ (by omega) (by omega), hn, hcast, int32_natCast hblock.le]
  have hsecond : shiftRight w (psid * 2 ^ (16 - q) : ℕ) l.offset =
      .ok ((psid * 2 ^ (16 - o - q) : ℕ) : ℤ) := by
    have hquot : psid * 2 ^ (16 - q) / 2 ^ o = psid * 2 ^ (16 - o - q) := by
      rw [hr, Nat.pow_add, ← Nat.mul_assoc, Nat.mul_div_cancel _ (Nat.two_pow_pos o)]
    rw [ho, shiftRight_inside w _ (by omega) (by omega), Int.toNat_natCast, ← hquot]
    push_cast
    rfl
  have hthird : shiftLeft w 1 (16 - l.offset - l.psidlen) = .ok ((2 ^ (16 - o - q) : ℕ) : ℤ) := by
    have hn : ((16 : ℤ) - o - q).toNat = 16 - o - q := by omega
    have hcast : (1 : ℤ) * 2 ^ (16 - o - q) = ((2 ^ (16 - o - q) : ℕ) : ℤ) := by push_cast; ring
    rw [ho, hq, shiftLeft_inside w _ (by omega) (by omega), hn, hcast, int32_natCast hunit]
  have hor : Int.lor ((k * 2 ^ (16 - o) : ℕ) : ℤ) ((psid * 2 ^ (16 - o - q) : ℕ) : ℤ) =
      (((k * 2 ^ q + psid) * 2 ^ (16 - o - q) : ℕ) : ℤ) := by
    have hsumbits : k * 2 ^ (16 - o) ||| psid * 2 ^ (16 - o - q) =
        (k * 2 ^ q + psid) * 2 ^ (16 - o - q) := by
      rw [Nat.mul_comm k, ← Nat.two_pow_add_eq_or_of_lt hinner, hpow]
      ring
    rw [← hsumbits]
    rfl
  unfold portset
  rw [hfirst, hsecond, hthird]
  simp only [ok_bind]
  refine ⟨_, rfl, ?_⟩
  rw [hor]
  generalize k * 2 ^ q + psid = a
  have hquot (p : ℕ) : p / 2 ^ (16 - o - q) = a ↔
      a * 2 ^ (16 - o - q) ≤ p ∧ p < a * 2 ^ (16 - o - q) + 2 ^ (16 - o - q) := by
    rw [Nat.div_eq_iff (Nat.two_pow_pos _)]
    have := Nat.two_pow_pos (16 - o - q)
    omega
  ext p
  simp only [Set.mem_ofPred_eq, covered, hquot]
  have hpos := Nat.two_pow_pos (16 - o - q)
  generalize a * 2 ^ (16 - o - q) = start
  generalize 2 ^ (16 - o - q) = len at hpos
  by_cases hstart : start = 0
  · subst hstart
    simp only [Nat.cast_zero, if_true]
    by_cases hlen : (1 : ℤ) ≤ 0 + (len : ℤ) - 1
    · rw [if_pos hlen]
      simp only [Option.toList_some, List.mem_singleton, exists_eq_left]
      omega
    · rw [if_neg hlen]
      simp only [Option.toList_none, List.not_mem_nil, false_and, exists_false, false_iff]
      omega
  · have hne : ¬(start : ℤ) = 0 := by omega
    rw [if_neg hne, if_pos (by omega)]
    simp only [Option.toList_some, List.mem_singleton, exists_eq_left]
    omega

theorem portsetsOf_fits (h : Fits l o q) {psid : ℕ} (hpsid : psid < 2 ^ q) {ks : List ℕ}
    (hks : ∀ k ∈ ks, k < 2 ^ o) :
    ∃ ranges, portsetsOf w l (psid * 2 ^ (16 - q) : ℕ) ks = .ok ranges ∧
      covered ranges = {p | 1 ≤ p ∧ ∃ k ∈ ks, p / 2 ^ (16 - o - q) = k * 2 ^ q + psid} := by
  induction ks with
  | nil =>
    refine ⟨[], rfl, ?_⟩
    ext p
    simp [covered]
  | cons k ks ih =>
    obtain ⟨hk, hrest⟩ := List.forall_mem_cons.mp hks
    obtain ⟨range, hrange, hcover⟩ := portset_fits h hk hpsid (w := w)
    obtain ⟨ranges, hranges, hcovers⟩ := ih hrest
    refine ⟨range.toList ++ ranges, ?_, ?_⟩
    · exact bind_ok.mpr ⟨range, hrange, bind_ok.mpr ⟨ranges, hranges, rfl⟩⟩
    · rw [covered_append, hcover, hcovers]
      ext p
      simp only [Set.mem_union, Set.mem_ofPred_eq, List.mem_cons, exists_eq_or_imp]
      exact and_or_left.symm

/-- The ranges of a PSID are its ports. -/
theorem portsets_fits (h : Fits l o q) {psid : ℕ} (hpsid : psid < 2 ^ q) :
    ∃ ranges, portsets w l (psid * 2 ^ (16 - q) : ℕ) = .ok ranges ∧
      covered ranges = portsWith o q psid := by
  obtain ⟨ho, hq, hpos, hsum⟩ := id h
  have hbound : shiftLeft w 1 l.offset = .ok ((2 ^ o : ℕ) : ℤ) := by
    have hcast : (1 : ℤ) * 2 ^ o = ((2 ^ o : ℕ) : ℤ) := by push_cast; ring
    rw [ho, shiftLeft_inside w _ (by omega) (by omega), Int.toNat_natCast, hcast,
      int32_natCast (Nat.pow_le_pow_right (by decide) (by omega))]
  have hprint : 0 < l.psidlen ∧ (0 : ℤ) ≤ ((psid * 2 ^ (16 - q) : ℕ) : ℤ) :=
    ⟨by omega, Int.natCast_nonneg _⟩
  have hzero : l.offset = 0 ↔ o = 0 := by omega
  unfold portsets
  rw [if_pos hprint]
  simp only [hbound, ok_bind, Int.toNat_natCast, hzero]
  generalize hfirst : (if o = 0 then 0 else 1) = first
  have hpow := Nat.two_pow_pos o
  have hle : first ≤ 2 ^ o := by
    subst hfirst
    split
    · exact Nat.zero_le _
    · exact hpow
  have hmem (k : ℕ) : k ∈ List.range' first (2 ^ o - first) ↔ first ≤ k ∧ k < 2 ^ o := by
    rw [List.mem_range'_1]
    omega
  obtain ⟨ranges, hranges, hcover⟩ := portsetsOf_fits (w := w) h hpsid
    fun k hk => ((hmem k).mp hk).2
  refine ⟨ranges, hranges, ?_⟩
  rw [hcover]
  have hr : 16 - o = 16 - o - q + q := by omega
  have hsixteen : (65536 : ℕ) = 2 ^ (o + q) * 2 ^ (16 - o - q) := by
    rw [← Nat.pow_add]
    have hexp : o + q + (16 - o - q) = 16 := by omega
    rw [hexp]
  ext p
  have hquot : p / 2 ^ (16 - o) = p / 2 ^ (16 - o - q) / 2 ^ q := by
    rw [Nat.div_div_eq_div_mul, ← Nat.pow_add, ← hr]
  have hport : p ≤ 65535 ↔ p / 2 ^ (16 - o - q) < 2 ^ (o + q) := by
    rw [Nat.div_lt_iff_lt_mul (Nat.two_pow_pos _), ← hsixteen]
    omega
  simp only [portsWith, ports, Set.mem_ofPred_eq, hmem, hquot, hport]
  generalize p / 2 ^ (16 - o - q) = x
  have hx : 2 ^ q * (x / 2 ^ q) + x % 2 ^ q = x := Nat.div_add_mod x (2 ^ q)
  have hwhole : 2 ^ (o + q) = 2 ^ o * 2 ^ q := Nat.pow_add 2 o q
  constructor
  · rintro ⟨hp, k, ⟨hlow, hhigh⟩, heq⟩
    have hdiv : x / 2 ^ q = k := by
      rw [heq, Nat.mul_comm, Nat.mul_add_div (Nat.two_pow_pos q), Nat.div_eq_of_lt hpsid,
        Nat.add_zero]
    have hmod : x % 2 ^ q = psid := by
      rw [heq, Nat.mul_comm, Nat.mul_add_mod, Nat.mod_eq_of_lt hpsid]
    refine ⟨⟨hp, ?_, fun hoffset => ?_⟩, hmod⟩
    · rw [hwhole, ← Nat.div_lt_iff_lt_mul (Nat.two_pow_pos q), hdiv]
      exact hhigh
    · rw [if_neg (by omega)] at hfirst
      omega
  · rintro ⟨⟨hp, hlt, hfront⟩, hmod⟩
    refine ⟨hp, x / 2 ^ q, ⟨?_, ?_⟩, ?_⟩
    · subst hfirst
      split
      · exact Nat.zero_le _
      · next hoffset => exact Nat.one_le_iff_ne_zero.mpr (hfront (Nat.pos_of_ne_zero hoffset))
    · rw [Nat.div_lt_iff_lt_mul (Nat.two_pow_pos q), ← hwhole]
      exact hlt
    · rw [← hmod, Nat.mul_comm]
      exact hx.symm

theorem printed_fits (h : Fits l o q) {psid : ℕ} (hpsid : psid < 2 ^ q) :
    printed w l psid = portsWith o q psid := by
  obtain ⟨ranges, hranges, hcover⟩ := portsets_fits (w := w) h hpsid
  have hlen : l.psidlen.toNat = q := by
    rw [h.psidlen, Int.toNat_natCast]
  ext p
  unfold printed
  rw [hlen, hranges, Set.mem_ofPred_eq, ← hcover]
  constructor
  · rintro ⟨ranges', heq, hp⟩
    cases heq
    exact hp
  · exact fun hp => ⟨ranges, rfl, hp⟩

/-- The ports with different PSIDs are different, and every port has a PSID. -/
theorem portsWith_disjoint {o q a b : ℕ} (h : a ≠ b) :
    Disjoint (portsWith o q a) (portsWith o q b) := by
  rw [Set.disjoint_left]
  rintro p ⟨_, ha⟩ ⟨_, hb⟩
  exact h (ha.symm.trans hb)

theorem portsWith_union (o q : ℕ) : {p | ∃ psid < 2 ^ q, p ∈ portsWith o q psid} = ports o := by
  ext p
  constructor
  · rintro ⟨_, _, hp, _⟩
    exact hp
  · exact fun hp => ⟨_, Nat.mod_lt _ (Nat.two_pow_pos q), hp, rfl⟩

/-- The port sets of a rule and of the other PSIDs it could have. -/
structure PortsExact (w : Wide) (r : Rule) : Prop where
  psid : 0 ≤ r.psid → ∃ psid : ℕ, psid < 2 ^ r.lengths.psidlen.toNat ∧
    r.psid = psid * 2 ^ (16 - r.lengths.psidlen.toNat) ∧ beValue r.psid16 2 = psid ∧
      covered r.portsets = portsWith r.lengths.offset.toNat r.lengths.psidlen.toNat psid
  disjoint : ∀ a < 2 ^ r.lengths.psidlen.toNat, ∀ b < 2 ^ r.lengths.psidlen.toNat, a ≠ b →
    Disjoint (printed w r.lengths a) (printed w r.lengths b)
  union : {p | ∃ psid < 2 ^ r.lengths.psidlen.toNat, p ∈ printed w r.lengths psid} =
    ports r.lengths.offset.toNat

/-- What a rule is said to do: print the port set of its PSID, or be refused. -/
def PortSets (w : Wide) (env : Env) (rule : Str) : Prop :=
  (∀ r, mapcalc w env rule = .ok (.rule r) → 0 < r.lengths.psidlen → r.lengths.psidlen ≤ 16 →
    r.lengths.offset + r.lengths.psidlen ≤ 16 → PortsExact w r) ∧
  ∀ s f, settings env.libc rule = .ok s → search env s = .ok f →
    16 < (lengths env.legacy s f.pdlen).offset + (lengths env.legacy s f.pdlen).psidlen →
      ∃ message, mapcalc w env rule = .ok (.skipped message)

/-- The rule fails one of the two checks, and nothing is read outside before that. -/
def Refused (s : Settings) (f : Found) (l : Lengths) : Prop :=
  PsidInside s f l ∧ (Invalid s l ∨ AddressInside s f l ∧ f.pdlen < 0 ∧ ¬s.fmr)

theorem mapcalc_eq {rule : Str} (hs : settings env.libc rule = .ok s) (hf : search env s = .ok f) :
    mapcalc w env rule = derive w env s f (lengths env.legacy s f.pdlen) := by
  unfold mapcalc
  rw [hs, ok_bind, hf, ok_bind]

theorem readAddress_gives (hv : Valid s l) (hin : AddressInside s f l) (g : ℤ → ℤ → ℤ) :
    ∃ m, readAddress (.gives g) s f l = .ok m := by
  by_cases hderived : 0 ≤ f.pdlen ∨ l.ealen = l.psidlen
  · obtain ⟨m, hm, _⟩ := readAddress_inside hv hderived hin (Or.inr ⟨g, rfl⟩)
    exact ⟨m, hm⟩
  · exact ⟨_, if_neg hderived⟩

theorem derive_skipped (hr : Ranged s f l) (g : ℤ → ℤ → ℤ) :
    (∃ message, derive (.gives g) env s f l = .ok (.skipped message)) ↔ Refused s f l := by
  constructor
  · rintro ⟨message, h⟩
    obtain ⟨a, b, hinside, _, _, h⟩ := derive_ok.mp h
    refine ⟨hinside, ?_⟩
    rcases finish_ok.mp h with ⟨hinvalid, _⟩ | ⟨hvalid, addr, haddr, h⟩
    · exact Or.inl hinvalid
    · rcases h with ⟨hpd, hfmr, _⟩ | ⟨_, _, _, _, _, heq⟩
      · exact Or.inr ⟨addressInside_of_readAddress hr (valid_of_not_invalid hvalid) haddr, hpd, hfmr⟩
      · cases heq
  · rintro ⟨hinside, hcheck⟩
    obtain ⟨a, ha⟩ := (shift_gives g (psidOf s f l) (16 - l.psidlen)).2
    obtain ⟨b, hb⟩ := (shift_gives g a (16 - l.psidlen)).1
    by_cases hinvalid : Invalid s l
    · exact ⟨_, derive_ok.mpr ⟨a, b, hinside, ha, hb, finish_ok.mpr (Or.inl ⟨hinvalid, rfl⟩)⟩⟩
    · obtain ⟨hin, hpd, hfmr⟩ := hcheck.resolve_left hinvalid
      obtain ⟨addr, haddr⟩ := readAddress_gives (valid_of_not_invalid hinvalid) hin g
      exact ⟨_, derive_ok.mpr ⟨a, b, hinside, ha, hb,
        finish_ok.mpr (Or.inr ⟨hinvalid, addr, haddr, Or.inl ⟨hpd, hfmr, rfl⟩⟩)⟩⟩

/-- The PSID in front of the shifts is an int, and at most 16 bits when it is known. -/
theorem psidOf_range (hr : Ranged s f l) :
    -2 ^ 31 ≤ psidOf s f l ∧ psidOf s f l ≤ 65535 := by
  unfold psidOf
  by_cases hread : PsidRead f l
  · rw [if_pos hread]
    have hlen : l.psidlen.toNat ≤ 16 := by
      have := hread.2.1
      omega
    have hfield := bitField_lt f.pd (psidAt s.prefix6len l) l.psidlen.toNat
    have hpow : 2 ^ l.psidlen.toNat * 2 ^ (16 - l.psidlen.toNat) = 65536 := by
      rw [← Nat.pow_add]
      have hexp : l.psidlen.toNat + (16 - l.psidlen.toNat) = 16 := by omega
      rw [hexp]
    have hlt : bitField f.pd (psidAt s.prefix6len l) l.psidlen.toNat *
        2 ^ (16 - l.psidlen.toNat) < 65536 := by
      rw [← hpow]
      exact (Nat.mul_lt_mul_right (Nat.two_pow_pos _)).mpr hfield
    have hcast : ((bitField f.pd (psidAt s.prefix6len l) l.psidlen.toNat *
        2 ^ (16 - l.psidlen.toNat) : ℕ) : ℤ) < 65536 := by exact_mod_cast hlt
    push_cast at hcast
    have hnonneg : (0 : ℤ) ≤ bitField f.pd (psidAt s.prefix6len l) l.psidlen.toNat *
        2 ^ (16 - l.psidlen.toNat) := by exact_mod_cast Nat.zero_le _
    omega
  · rw [if_neg hread]
    exact hr.psid

/-- The two shifts clear the bits behind the PSID. -/
theorem shifts_inside {x n : ℤ} (hx : -2 ^ 31 ≤ x) (hx' : x < 2 ^ 31) (hn : 0 ≤ n) (hn' : n < 32) :
    shiftRight w x n = .ok (x / 2 ^ n.toNat) ∧
      shiftLeft w (x / 2 ^ n.toNat) n = .ok (x / 2 ^ n.toNat * 2 ^ n.toNat) := by
  refine ⟨shiftRight_inside w x hn hn', ?_⟩
  have hpos : (0 : ℤ) < 2 ^ n.toNat := Int.pow_pos (by decide)
  have hwhole : (2 : ℤ) ^ 31 = 2 ^ (31 - n.toNat) * 2 ^ n.toNat := by
    rw [← pow_add]
    have hexp : 31 - n.toNat + n.toNat = 31 := by omega
    rw [hexp]
  have hlow : -2 ^ (31 - n.toNat) ≤ x / 2 ^ n.toNat := by
    apply Int.le_ediv_of_mul_le hpos
    rw [neg_mul, ← hwhole]
    exact hx
  have hhigh : x / 2 ^ n.toNat * 2 ^ n.toNat ≤ x := Int.ediv_mul_le x hpos.ne'
  have hmul := Int.mul_le_mul_of_nonneg_right hlow hpos.le
  rw [neg_mul, ← hwhole] at hmul
  rw [shiftLeft_inside w _ hn hn', int32_of_small hmul (by omega)]

/-- A rule is printed with the lengths it is derived from. -/
theorem derive_rule {r : Rule} (h : derive w env s f l = .ok (.rule r)) :
    r.settings = s ∧ r.lengths = l ∧ r.found = f := by
  obtain ⟨a, b, _, _, _, h⟩ := derive_ok.mp h
  rcases finish_ok.mp h with ⟨_, heq⟩ | ⟨_, addr, _, ⟨_, _, heq⟩ | ⟨_, _, _, _, _, heq⟩⟩
  · cases heq
  · cases heq
  · cases heq
    exact ⟨rfl, rfl, rfl⟩

theorem portsExact_of_rule (hr : Ranged s f l) (g : ℤ → ℤ → ℤ) {r : Rule}
    (h : derive (.gives g) env s f l = .ok (.rule r)) (hpos : 0 < l.psidlen)
    (hsum : l.offset + l.psidlen ≤ 16) : PortsExact (.gives g) r := by
  have hoffset := hr.offset
  obtain ⟨hxlow, hxhigh⟩ := psidOf_range hr
  obtain ⟨a, b, hinside, ha, hb, h⟩ := derive_ok.mp h
  have hshift := shifts_inside (w := .gives g) hxlow (by omega) (by omega : 0 ≤ 16 - l.psidlen)
    (by omega)
  rw [hshift.1] at ha
  cases ha
  rw [hshift.2] at hb
  cases hb
  have hfits : Fits l l.offset.toNat l.psidlen.toNat := ⟨by omega, by omega, by omega, by omega⟩
  rcases finish_ok.mp h with ⟨_, heq⟩ | ⟨_, addr, _, h⟩
  · cases heq
  rcases h with ⟨_, _, heq⟩ | ⟨_, ipv6addr, ranges, _, hranges, heq⟩
  · cases heq
  injection heq with heq
  subst heq
  have hn : (16 - l.psidlen).toNat = 16 - l.psidlen.toNat := by omega
  refine ⟨fun hpsid => ?_, fun a ha b hb hne => ?_, ?_⟩
  · dsimp only at hpsid ⊢
    rw [hn] at hranges hpsid ⊢
    generalize hquot : psidOf s f l / 2 ^ (16 - l.psidlen.toNat) = quot at hranges hpsid ⊢
    have hpow : (0 : ℤ) < 2 ^ (16 - l.psidlen.toNat) := Int.pow_pos (by decide)
    have hquotpos : 0 ≤ quot := nonneg_of_mul_nonneg_left hpsid hpow
    obtain ⟨psid, rfl⟩ := Int.eq_ofNat_of_zero_le hquotpos
    have hwhole : (2 : ℤ) ^ l.psidlen.toNat * 2 ^ (16 - l.psidlen.toNat) = 65536 := by
      rw [← pow_add]
      have hexp : l.psidlen.toNat + (16 - l.psidlen.toNat) = 16 := by omega
      rw [hexp]
      norm_num
    have hlt : psid < 2 ^ l.psidlen.toNat := by
      have hdiv : psidOf s f l / 2 ^ (16 - l.psidlen.toNat) < 2 ^ l.psidlen.toNat := by
        apply Int.ediv_lt_of_lt_mul hpow
        rw [hwhole]
        omega
      rw [hquot] at hdiv
      exact_mod_cast hdiv
    have hsmall : psid < 2 ^ (8 * 2) :=
      hlt.trans_le (Nat.pow_le_pow_right (by decide) (by omega))
    have hmod : ((psid : ℤ) % 2 ^ 16).toNat = psid := by omega
    obtain ⟨ranges', hranges', hcover⟩ := portsets_fits (w := .gives g) hfits hlt
    have hcast : ((psid * 2 ^ (16 - l.psidlen.toNat) : ℕ) : ℤ) =
        (psid : ℤ) * 2 ^ (16 - l.psidlen.toNat) := by push_cast; rfl
    rw [hcast, hranges] at hranges'
    cases hranges'
    exact ⟨psid, hlt, rfl, by rw [hmod, beValue_beBytes hsmall], hcover⟩
  · dsimp only at ha hb ⊢
    rw [printed_fits hfits ha, printed_fits hfits hb]
    exact portsWith_disjoint hne
  · dsimp only
    rw [← portsWith_union l.offset.toNat l.psidlen.toNat]
    ext p
    constructor
    · rintro ⟨psid, hlt, hp⟩
      exact ⟨psid, hlt, printed_fits hfits hlt ▸ hp⟩
    · rintro ⟨psid, hlt, hp⟩
      exact ⟨psid, hlt, (printed_fits hfits hlt).symm ▸ hp⟩

/-- A rule that is printed although its offset and its PSID do not fit into a port. -/
theorem not_portSets {rule : Str} {r : Rule} (h : mapcalc w env rule = .ok (.rule r))
    (hsum : 16 < r.lengths.offset + r.lengths.psidlen) : ¬PortSets w env rule := by
  rintro ⟨_, hrefused⟩
  obtain ⟨s, hs, hrest⟩ := bind_ok.mp h
  obtain ⟨f, hf, hderive⟩ := bind_ok.mp hrest
  obtain ⟨_, hlengths, _⟩ := derive_rule hderive
  rw [hlengths] at hsum
  obtain ⟨message, hskip⟩ := hrefused s f hs hf hsum
  rw [h] at hskip
  cases hskip

/-- A C library that reads numbers, and knows the address ::. -/
def sampleLibc : Libc where
  pton4 _ := none
  pton6 text := if text = bytesOf "::" then some fun _ => 0 else none
  strtoul text := some (strtoul 0 text).1

def sampleEnv : Env := ⟨sampleLibc, false, bytesOf "*", []⟩

def sampleRule : Str := bytesOf "prefix6len=40,ealen=16,psidlen=16,offset=1,pd=::,pdlen=56"

def lengthsOf : Except Fault Outcome → Option (ℤ × ℤ)
  | .ok (.rule r) => some (r.lengths.offset, r.lengths.psidlen)
  | _ => none

end Iot7688.Mapcalc
