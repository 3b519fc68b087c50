import Iot7688.Lib.Register
import Iot7688.Lib.Run

/-!
Jumbo frames of the ralink ethernet driver, on SoCs with FE_FLAG_JUMBO_FRAME. A change of
the MTU across 1500 resizes the receive buffers. The length limit of the hardware is only
written when the device runs at that time, and a change between two sizes above 1500 does
not write it at all.
-/
namespace Iot7688.RalinkMtu

open Lib Lib.Register

/-- Up to a whole number of cache lines. -/
def skbDataAlign (x : BitVec 32) : BitVec 32 := (x + 31#32) &&& ~~~31#32

/-- FE_RX_ETH_HLEN is 26, FE_RX_HLEN 64 + 26 + 2 and MAX_RX_LENGTH 1536. The argument
`sharedInfo` is the size of struct skb_shared_info. -/
def feMaxFragSize (sharedInfo mtu : BitVec 32) : BitVec 32 :=
  let mtu := if (mtu + 26).slt 1536 then 1536 - 26 else mtu
  skbDataAlign (92 + mtu) + skbDataAlign sharedInfo

/-- BUG_ON stops the kernel if this is below MAX_RX_LENGTH. -/
def feMaxBufSize (sharedInfo fragSize : BitVec 32) : BitVec 32 :=
  fragSize - 64 - 2 - skbDataAlign sharedInfo

structure Dev where
  mtu : BitVec 32
  /-- netif_running -/
  running : Bool
  fragSize : BitVec 16
  rxBufSize : BitVec 16
  /-- FE_GDMA1_FWD_CFG -/
  fwdCfg : BitVec 32

inductive Ret
  | ok
  | einval
  | enomem
  deriving DecidableEq

def jmbEn : BitVec 32 := 1#32 <<< 19

/-- What fe_hw_init leaves in the register. -/
def feFwdConfig (fwdCfg : BitVec 32) : BitVec 32 := fwdCfg &&& ~~~jmbEn &&& ~~~0xffff#32

/-- The device after fe_probe. -/
def feProbe (sharedInfo fwdCfg : BitVec 32) : Dev :=
  let fragSize := (feMaxFragSize sharedInfo 1500).setWidth 16
  { mtu := 1500
    running := false
    fragSize := fragSize
    rxBufSize := (feMaxBufSize sharedInfo (fragSize.setWidth 32)).setWidth 16
    fwdCfg := feFwdConfig fwdCfg }

/-- fe_open starts the DMA with the sizes and limits as they are; it fails when there is no
memory for the rings. -/
def feOpen (opens : Bool) : Ret := if opens then .ok else .enomem

/-- The forward configuration that fe_change_mtu writes. -/
def jumboConfig (newMtu fragSize fwdCfg : BitVec 32) : BitVec 32 :=
  if newMtu.sle 1500 then fwdCfg &&& ~~~jmbEn
  else (fwdCfg &&& ~~~(0xf#32 <<< 28)) ||| ((((fragSize + 1024 - 1).sdiv 1024) <<< 28) ||| jmbEn)

/-- The test for the page size is made on unsigned numbers. -/
def refused (sharedInfo newMtu : BitVec 32) : Prop :=
  newMtu.slt 68 ∨ 4096#32 < feMaxFragSize sharedInfo newMtu

instance (sharedInfo newMtu : BitVec 32) : Decidable (refused sharedInfo newMtu) :=
  inferInstanceAs (Decidable (_ ∨ _))

def feChangeMtu (sharedInfo newMtu : BitVec 32) (opens : Bool) (d : Dev) : Ret × Dev :=
  let fragSize := feMaxFragSize sharedInfo newMtu
  if refused sharedInfo newMtu then (.einval, d)
  else
    let oldMtu := d.mtu
    let d := { d with mtu := newMtu }
    if oldMtu.sle 1500 && newMtu.sle 1500 then (.ok, d)
    else if (1500#32).slt oldMtu && (1500#32).slt newMtu then (.ok, d)
    else
      let size := (if newMtu.sle 1500 then feMaxFragSize sharedInfo 1500 else 4096).setWidth 16
      let d := { d with
        fragSize := size
        rxBufSize := (feMaxBufSize sharedInfo (size.setWidth 32)).setWidth 16 }
      if d.running = false then (.ok, d)
      else (feOpen opens, { d with fwdCfg := jumboConfig newMtu fragSize d.fwdCfg })

inductive Call
  | changeMtu (newMtu : BitVec 32) (opens : Bool)
  | open (opens : Bool)
  | stop

/-- The kernel opens a device that is stopped and stops one that runs. -/
def run (sharedInfo : BitVec 32) (d : Dev) : Call → Ret × Dev
  | .changeMtu newMtu opens => feChangeMtu sharedInfo newMtu opens d
  | .open opens =>
      if d.running then (.ok, d) else (feOpen opens, { d with running := opens })
  | .stop => (.ok, { d with running := false })

def next (sharedInfo : BitVec 32) (d : Dev) (c : Call) : Dev := (run sharedInfo d c).2

/-- The hardware passes frames of this many bytes on. -/
def Passes (d : Dev) (len : ℕ) : Prop :=
  field d.fwdCfg 19 (ones 32 1) = 1 ∧ len ≤ 1024 * (field d.fwdCfg 28 (ones 32 4)).toNat

/-- While the device runs, a frame of the MTU fits into the buffers, and the hardware
passes it on. -/
def Right (d : Dev) : Prop :=
  d.running = true → d.mtu.toNat + 26 ≤ d.rxBufSize.toNat ∧
    (1500 < d.mtu.toNat → Passes d (d.mtu.toNat + 26))

/-- A refused MTU changes nothing. -/
def Kept (sharedInfo : BitVec 32) (d : Dev) : Call → Prop
  | .changeMtu newMtu opens =>
      (feChangeMtu sharedInfo newMtu opens d).1 ≠ .ok →
        (feChangeMtu sharedInfo newMtu opens d).2 = d
  | _ => True

/-- The sum of the MTU and the header is an int. -/
def SumFits (mtu : BitVec 32) : Prop := mtu.toNat + 26 < 2 ^ 31

/-- A change within the sizes above 1500 of a running device keeps to the limit that is in
force, and a device is opened with a size above 1500 only if the limit in force allows it. -/
def Good (sharedInfo : BitVec 32) (d : Dev) : Call → Prop
  | .changeMtu newMtu _ =>
      ¬refused sharedInfo newMtu → d.running = true → SumFits newMtu ∧
        (1500 < d.mtu.toNat → 1500 < newMtu.toNat → Passes d (newMtu.toNat + 26))
  | .open opens =>
      opens = true → d.running = false → SumFits d.mtu ∧
        (1500 < d.mtu.toNat → Passes d (d.mtu.toNat + 26))
  | .stop => True

/-- A change across 1500 of a running device finds the memory for the rings. -/
def Reopens (sharedInfo : BitVec 32) (d : Dev) : Call → Prop
  | .changeMtu newMtu opens =>
      ¬refused sharedInfo newMtu → d.running = true →
        (d.mtu.sle 1500 ≠ newMtu.sle 1500) → opens = true
  | _ => True

theorem toNat_skbDataAlign {x : BitVec 32} (h : x.toNat + 31 < 2 ^ 32) :
    (skbDataAlign x).toNat = (x.toNat + 31) / 32 * 32 := by
  have hmask : (x + 31#32) &&& ~~~31#32 = ((x + 31#32) >>> 5) <<< 5 := by
    apply BitVec.eq_of_getLsbD_eq
    intro i hi
    have hbit : (~~~31#32).getLsbD i = !decide (i < 5) := by
      have hones : (31#32).getLsbD i = decide (i < 5) := by
        have h := getLsbD_ones (n := 32) (w := 5) i
        simpa [hi, ones] using h
      rw [BitVec.getLsbD_not, hones]
      simp [hi]
    rw [BitVec.getLsbD_and, hbit, BitVec.getLsbD_shiftLeft, BitVec.getLsbD_ushiftRight]
    by_cases hlow : i < 5
    · simp [hlow]
    · simp [hlow, hi, show 5 + (i - 5) = i by omega]
  have hsum : (x + 31#32).toNat = x.toNat + 31 := by
    rw [BitVec.toNat_add]
    exact Nat.mod_eq_of_lt h
  unfold skbDataAlign
  rw [hmask, BitVec.toNat_shiftLeft, BitVec.toNat_ushiftRight, hsum, Nat.shiftLeft_eq,
    Nat.shiftRight_eq_div_pow]
  show (x.toNat + 31) / 32 * 32 % 2 ^ 32 = _
  omega

theorem slt_iff {x y : BitVec 32} (hx : x.toNat < 2 ^ 31) (hy : y.toNat < 2 ^ 31) :
    x.slt y = true ↔ x.toNat < y.toNat := by
  rw [BitVec.slt_iff_toInt_lt, BitVec.toInt_eq_toNat_of_lt (by omega),
    BitVec.toInt_eq_toNat_of_lt (by omega), Int.ofNat_lt]

theorem sle_iff {x y : BitVec 32} (hx : x.toNat < 2 ^ 31) (hy : y.toNat < 2 ^ 31) :
    x.sle y = true ↔ x.toNat ≤ y.toNat := by
  rw [BitVec.sle_iff_toInt_le, BitVec.toInt_eq_toNat_of_lt (by omega),
    BitVec.toInt_eq_toNat_of_lt (by omega), Int.ofNat_le]

section

variable {sharedInfo mtu : BitVec 32}
  (hpage : (skbDataAlign sharedInfo).toNat + 66 + 1536 ≤ 4096)

include hpage

theorem toNat_feMaxFragSize (hfits : SumFits mtu) :
    (feMaxFragSize sharedInfo mtu).toNat =
      (max mtu.toNat 1510 + 123) / 32 * 32 + (skbDataAlign sharedInfo).toNat := by
  unfold SumFits at hfits
  have hsum : (mtu + 26).toNat = mtu.toNat + 26 := by
    rw [BitVec.toNat_add]
    show (mtu.toNat + 26) % 2 ^ 32 = _
    omega
  have hmtu : (if (mtu + 26).slt 1536 then 1536 - 26 else mtu).toNat = max mtu.toNat 1510 := by
    by_cases hsmall : (mtu + 26).slt 1536 = true
    · rw [if_pos hsmall]
      have hlt := (slt_iff (by omega) (by decide)).mp hsmall
      rw [hsum] at hlt
      have hlt' : mtu.toNat + 26 < 1536 := hlt
      show 1510 = _
      omega
    · rw [if_neg hsmall]
      rw [slt_iff (by omega) (by decide), hsum] at hsmall
      have hge : ¬mtu.toNat + 26 < 1536 := hsmall
      omega
  have hframe : (92 + if (mtu + 26).slt 1536 then 1536 - 26 else mtu).toNat =
      92 + max mtu.toNat 1510 := by
    rw [BitVec.toNat_add, hmtu]
    show (92 + max mtu.toNat 1510) % 2 ^ 32 = _
    omega
  unfold feMaxFragSize
  dsimp only
  rw [BitVec.toNat_add, toNat_skbDataAlign (by omega), hframe]
  omega

theorem toNat_bufSize_small : ((feMaxBufSize sharedInfo
    (((feMaxFragSize sharedInfo 1500).setWidth 16).setWidth 32)).setWidth 16).toNat = 1566 := by
  have hfits : SumFits 1500 := by
    unfold SumFits
    decide
  have hfrag : (feMaxFragSize sharedInfo 1500).toNat =
    1632 + (skbDataAlign sharedInfo).toNat := toNat_feMaxFragSize hpage hfits
  unfold feMaxBufSize
  generalize feMaxFragSize sharedInfo 1500 = f at *
  generalize skbDataAlign sharedInfo = a at *
  bv_omega

theorem toNat_bufSize_page : ((feMaxBufSize sharedInfo
    (((4096 : BitVec 32).setWidth 16).setWidth 32)).setWidth 16).toNat =
      4030 - (skbDataAlign sharedInfo).toNat := by
  unfold feMaxBufSize
  generalize skbDataAlign sharedInfo = a at *
  bv_omega

/-- What holds of an MTU that is accepted. -/
theorem of_accepted (h : ¬refused sharedInfo mtu) :
    68 ≤ mtu.toNat ∧ mtu.toNat < 2 ^ 31 ∧ (SumFits mtu →
      mtu.toNat + 92 + (skbDataAlign sharedInfo).toNat ≤ (feMaxFragSize sharedInfo mtu).toNat ∧
        (feMaxFragSize sharedInfo mtu).toNat ≤ 4096) := by
  unfold refused at h
  obtain ⟨hsmall, hlarge⟩ := not_or.mp h
  rw [BitVec.slt_iff_toInt_lt, BitVec.toInt_eq_toNat_cond] at hsmall
  have hsmall' : ¬(if 2 * mtu.toNat < 2 ^ 32 then (mtu.toNat : ℤ)
    else (mtu.toNat : ℤ) - (2 ^ 32 : ℕ)) < 68 := hsmall
  have hlt := mtu.isLt
  have hpos : 2 * mtu.toNat < 2 ^ 32 := by
    by_contra hneg
    rw [if_neg hneg] at hsmall'
    omega
  rw [if_pos hpos] at hsmall'
  have hpagesize : (feMaxFragSize sharedInfo mtu).toNat ≤ 4096 := Nat.le_of_not_lt hlarge
  refine ⟨by omega, by omega, fun hfits => ⟨?_, hpagesize⟩⟩
  rw [toNat_feMaxFragSize hpage hfits]
  omega

/-- The limit that is written for an accepted size above 1500 allows it. -/
theorem passes_jumboConfig (h : ¬refused sharedInfo mtu) (hfits : SumFits mtu)
    (hlarge : mtu.sle 1500 = false) {d : Dev} {fwdCfg : BitVec 32}
    (hcfg : d.fwdCfg = jumboConfig mtu (feMaxFragSize sharedInfo mtu) fwdCfg) :
    Passes d (mtu.toNat + 26) := by
  obtain ⟨-, -, hframe⟩ := of_accepted hpage h
  obtain ⟨hle, hmax⟩ := hframe hfits
  have hsum : (feMaxFragSize sharedInfo mtu + 1024 - 1).toNat =
      (feMaxFragSize sharedInfo mtu).toNat + 1023 := by
    generalize feMaxFragSize sharedInfo mtu = f at *
    bv_omega
  have hdiv : ((feMaxFragSize sharedInfo mtu + 1024 - 1).sdiv 1024).toNat =
      ((feMaxFragSize sharedInfo mtu).toNat + 1023) / 1024 := by
    have hmsb : (feMaxFragSize sharedInfo mtu + 1024 - 1).msb = false := by
      rw [BitVec.msb_eq_false_iff_two_mul_lt, hsum]
      omega
    rw [BitVec.sdiv_eq, hmsb]
    show (feMaxFragSize sharedInfo mtu + 1024 - 1).toNat / 1024 = _
    rw [hsum]
  have hlow : ((feMaxFragSize sharedInfo mtu + 1024 - 1).sdiv 1024).toNat < 2 ^ 4 := by
    rw [hdiv]
    omega
  have hconfig : jumboConfig mtu (feMaxFragSize sharedInfo mtu) fwdCfg =
      put fwdCfg 28 (ones 32 4) ((feMaxFragSize sharedInfo mtu + 1024 - 1).sdiv 1024) |||
        jmbEn := by
    unfold jumboConfig put
    rw [hlarge, if_neg Bool.false_ne_true, and_ones hlow, BitVec.or_assoc]
    rfl
  have hlen : field jmbEn 28 (ones 32 4) = 0#32 := by decide
  have hen : field jmbEn 19 (ones 32 1) = 1 := by decide
  unfold Passes
  rw [hcfg, hconfig, field_or, field_or, hen, hlen, field_put_here (by decide), and_ones hlow]
  constructor
  · exact field_or_mask
  · rw [BitVec.or_zero, hdiv]
    omega

end

/-- What holds before every call of a run of good calls. -/
structure Inv (sharedInfo : BitVec 32) (d : Dev) : Prop where
  mtu_lt : d.mtu.toNat < 2 ^ 31
  bufSize : d.rxBufSize.toNat =
    if d.mtu.toNat ≤ 1500 then 1566 else 4030 - (skbDataAlign sharedInfo).toNat
  room : 1500 < d.mtu.toNat → SumFits d.mtu →
    d.mtu.toNat + 26 ≤ 4030 - (skbDataAlign sharedInfo).toNat
  right : Right d

/-- The device with the buffers that the new size asks for. -/
def resized (sharedInfo newMtu : BitVec 32) (d : Dev) : Dev :=
  let size := (if newMtu.sle 1500 then feMaxFragSize sharedInfo 1500 else 4096).setWidth 16
  { d with
    mtu := newMtu
    fragSize := size
    rxBufSize := (feMaxBufSize sharedInfo (size.setWidth 32)).setWidth 16 }

section

variable {sharedInfo newMtu : BitVec 32} {opens : Bool} {d : Dev}

theorem feChangeMtu_refused (h : refused sharedInfo newMtu) :
    feChangeMtu sharedInfo newMtu opens d = (.einval, d) := if_pos h

theorem slt_eq (x : BitVec 32) : (1500#32).slt x = !x.sle 1500 := by
  rw [BitVec.sle_eq_not_slt, Bool.not_not]
  rfl

theorem feChangeMtu_within (h : ¬refused sharedInfo newMtu)
    (hsame : d.mtu.sle 1500 = newMtu.sle 1500) :
    feChangeMtu sharedInfo newMtu opens d = (.ok, { d with mtu := newMtu }) := by
  unfold feChangeMtu
  dsimp only
  rw [if_neg h, slt_eq, slt_eq, hsame]
  cases newMtu.sle 1500 with
  | true => rfl
  | false => rfl

theorem feChangeMtu_across (h : ¬refused sharedInfo newMtu)
    (hcross : d.mtu.sle 1500 ≠ newMtu.sle 1500) :
    feChangeMtu sharedInfo newMtu opens d =
      if d.running = false then (.ok, resized sharedInfo newMtu d)
      else (feOpen opens, { resized sharedInfo newMtu d with
        fwdCfg := jumboConfig newMtu (feMaxFragSize sharedInfo newMtu) d.fwdCfg }) := by
  have hold : d.mtu.sle 1500 = !newMtu.sle 1500 := Bool.eq_not_of_ne hcross
  unfold feChangeMtu
  dsimp only
  rw [if_neg h, slt_eq, slt_eq, hold, Bool.not_and_self, Bool.not_not, Bool.and_not_self,
    if_neg Bool.false_ne_true, if_neg Bool.false_ne_true]
  rfl

/-- A change that is refused changes nothing if a device that is stopped for the change
starts again. -/
theorem kept_iff (c : Call) : Kept sharedInfo d c ↔ Reopens sharedInfo d c := by
  cases c with
  | «open» opens => exact Iff.rfl
  | stop => exact Iff.rfl
  | changeMtu newMtu opens =>
    by_cases hrefused : refused sharedInfo newMtu
    · unfold Kept Reopens
      dsimp only
      rw [feChangeMtu_refused hrefused]
      exact ⟨fun _ haccept => absurd hrefused haccept, fun _ _ => rfl⟩
    by_cases hsame : d.mtu.sle 1500 = newMtu.sle 1500
    · unfold Kept Reopens
      dsimp only
      rw [feChangeMtu_within hrefused hsame]
      exact ⟨fun _ _ _ hcross => absurd hsame hcross, fun _ hfail => absurd rfl hfail⟩
    unfold Kept Reopens
    dsimp only
    rw [feChangeMtu_across hrefused hsame]
    cases hrun : d.running with
    | false =>
      exact ⟨fun _ _ hrun' => absurd hrun' Bool.false_ne_true, fun _ hfail => absurd rfl hfail⟩
    | true =>
      rw [if_neg (by decide)]
      cases opens with
      | true => exact ⟨fun _ _ _ _ => rfl, fun _ hfail => absurd rfl hfail⟩
      | false =>
        constructor
        · intro hkept
          have hsize := congrArg Dev.mtu (hkept (show Ret.enomem ≠ Ret.ok by decide))
          exact absurd (congrArg (BitVec.sle · 1500) hsize.symm) hsame
        · intro hreopens
          exact absurd (hreopens hrefused rfl hsame) Bool.false_ne_true

variable (hpage : (skbDataAlign sharedInfo).toNat + 66 + 1536 ≤ 4096)

include hpage

theorem inv_feProbe (fwdCfg : BitVec 32) : Inv sharedInfo (feProbe sharedInfo fwdCfg) where
  mtu_lt := by
    show (1500#32).toNat < _
    decide
  bufSize := toNat_bufSize_small hpage
  room := fun h => absurd h (by show ¬1500 < (1500#32).toNat; decide)
  right := fun h => absurd h Bool.false_ne_true

/-- What an accepted change does: the buffers are as large as the new size asks for, and
the limit is written when a running device crosses 1500. -/
theorem feChangeMtu_accepted (opens : Bool) (h : Inv sharedInfo d)
    (haccept : ¬refused sharedInfo newMtu) :
    (feChangeMtu sharedInfo newMtu opens d).2.mtu = newMtu ∧
    (feChangeMtu sharedInfo newMtu opens d).2.running = d.running ∧
    (feChangeMtu sharedInfo newMtu opens d).2.rxBufSize.toNat =
      (if newMtu.toNat ≤ 1500 then 1566 else 4030 - (skbDataAlign sharedInfo).toNat) ∧
    (feChangeMtu sharedInfo newMtu opens d).2.fwdCfg =
      (if d.running = true ∧ d.mtu.sle 1500 ≠ newMtu.sle 1500 then
        jumboConfig newMtu (feMaxFragSize sharedInfo newMtu) d.fwdCfg else d.fwdCfg) := by
  obtain ⟨-, hlt, -⟩ := of_accepted hpage haccept
  have hnew : newMtu.sle 1500 = true ↔ newMtu.toNat ≤ 1500 := sle_iff hlt (by decide)
  have hold : d.mtu.sle 1500 = true ↔ d.mtu.toNat ≤ 1500 := sle_iff h.mtu_lt (by decide)
  by_cases hsame : d.mtu.sle 1500 = newMtu.sle 1500
  · have hcfg : ¬(d.running = true ∧ d.mtu.sle 1500 ≠ newMtu.sle 1500) := fun h => h.2 hsame
    have hbuf := h.bufSize
    rw [hsame, hnew] at hold
    rw [feChangeMtu_within haccept hsame, if_neg hcfg]
    refine ⟨rfl, rfl, ?_, rfl⟩
    show d.rxBufSize.toNat = _
    rw [hbuf]
    simp only [hold]
  · have hsize : (resized sharedInfo newMtu d).rxBufSize.toNat =
        if newMtu.toNat ≤ 1500 then 1566 else 4030 - (skbDataAlign sharedInfo).toNat := by
      unfold resized
      dsimp only
      by_cases hsmall : newMtu.toNat ≤ 1500
      · rw [if_pos (hnew.mpr hsmall), if_pos hsmall, toNat_bufSize_small hpage]
      · rw [if_neg fun h => hsmall (hnew.mp h), if_neg hsmall, toNat_bufSize_page hpage]
    rw [feChangeMtu_across haccept hsame]
    cases hrun : d.running with
    | false => exact ⟨rfl, hrun, hsize, rfl⟩
    | true => exact ⟨rfl, hrun, hsize, (if_pos ⟨rfl, hsame⟩).symm⟩

/-- Within the sizes up to 1500 the buffers always suffice, and above as far as the sum
with the header is an int. -/
theorem room_iff {mtu buf : ℕ} (hbuf : buf = if mtu ≤ 1500 then 1566
    else 4030 - (skbDataAlign sharedInfo).toNat)
    (hroom : 1500 < mtu → mtu + 26 < 2 ^ 31 →
      mtu + 26 ≤ 4030 - (skbDataAlign sharedInfo).toNat) :
    mtu + 26 ≤ buf ↔ mtu + 26 < 2 ^ 31 := by
  by_cases hsmall : mtu ≤ 1500
  · rw [if_pos hsmall] at hbuf
    omega
  · rw [if_neg hsmall] at hbuf
    constructor
    · intro hle
      omega
    · intro hfits
      rw [hbuf]
      exact hroom (Nat.lt_of_not_le hsmall) hfits

omit hpage in
theorem passes_congr {d' : Dev} {len : ℕ} (h : d'.fwdCfg = d.fwdCfg) :
    Passes d' len ↔ Passes d len := by
  unfold Passes
  rw [h]

theorem right_changeMtu_iff (h : Inv sharedInfo d) :
    Right (next sharedInfo d (.changeMtu newMtu opens)) ↔
      Good sharedInfo d (.changeMtu newMtu opens) := by
  show Right (feChangeMtu sharedInfo newMtu opens d).2 ↔ _
  by_cases hrefused : refused sharedInfo newMtu
  · rw [feChangeMtu_refused hrefused]
    exact iff_of_true h.right fun haccept => absurd hrefused haccept
  obtain ⟨hmtu, hrun, hbuf, hcfg⟩ := feChangeMtu_accepted hpage opens h hrefused
  obtain ⟨-, hlt, hframe⟩ := of_accepted hpage hrefused
  have hroom := room_iff hpage hbuf fun _ hfits => by
    have := hframe hfits
    omega
  have hnew : newMtu.sle 1500 = true ↔ newMtu.toNat ≤ 1500 := sle_iff hlt (by decide)
  have hold : d.mtu.sle 1500 = true ↔ d.mtu.toNat ≤ 1500 := sle_iff h.mtu_lt (by decide)
  have hsame (hwas : 1500 < d.mtu.toNat) (hnow : 1500 < newMtu.toNat) :
      ¬(d.running = true ∧ d.mtu.sle 1500 ≠ newMtu.sle 1500) := by
    have hwas' := mt hold.mp (Nat.not_le_of_lt hwas)
    have hnow' := mt hnew.mp (Nat.not_le_of_lt hnow)
    rw [Bool.eq_false_of_not_eq_true hwas', Bool.eq_false_of_not_eq_true hnow']
    exact fun h => h.2 rfl
  unfold Right Good
  dsimp only
  rw [hmtu, hrun, hroom]
  constructor
  · rintro hright - hon
    obtain ⟨hfits, hpasses⟩ := hright hon
    refine ⟨hfits, fun hwas hnow => ?_⟩
    have hkeep := if_neg (hsame hwas hnow) ▸ hcfg
    exact (passes_congr hkeep).mp (hpasses hnow)
  · intro hgood hon
    obtain ⟨hfits, hlimit⟩ := hgood hrefused hon
    refine ⟨hfits, fun hnow => ?_⟩
    by_cases hwas : 1500 < d.mtu.toNat
    · have hkeep := if_neg (hsame hwas hnow) ▸ hcfg
      exact (passes_congr hkeep).mpr (hlimit hwas hnow)
    · have hwas' : d.mtu.sle 1500 = true := hold.mpr (Nat.le_of_not_lt hwas)
      have hnow' : newMtu.sle 1500 = false :=
        Bool.eq_false_of_not_eq_true fun h => Nat.not_le_of_lt hnow (hnew.mp h)
      have hcross : d.running = true ∧ d.mtu.sle 1500 ≠ newMtu.sle 1500 := by
        rw [hwas', hnow']
        exact ⟨hon, Bool.false_ne_true.symm⟩
      exact passes_jumboConfig hpage hrefused hfits hnow' (hcfg.trans (if_pos hcross))

/-- The calls that leave the limits right are the good ones. -/
theorem right_iff (h : Inv sharedInfo d) (c : Call) :
    Right (next sharedInfo d c) ↔ Good sharedInfo d c := by
  cases c with
  | changeMtu newMtu opens => exact right_changeMtu_iff hpage h
  | stop => exact iff_of_true (fun hon => absurd hon Bool.false_ne_true) trivial
  | «open» opens =>
    have hroom := room_iff hpage h.bufSize h.room
    unfold next run Good
    cases hrun : d.running with
    | true => exact iff_of_true h.right fun _ hoff => absurd hoff Bool.false_ne_true.symm
    | false =>
      show (opens = true → d.mtu.toNat + 26 ≤ d.rxBufSize.toNat ∧ _) ↔ _
      rw [hroom]
      exact ⟨fun hright hopens _ => hright hopens, fun hgood hopens => hgood hopens rfl⟩

theorem inv_next (c : Call) (h : Inv sharedInfo d) (hgood : Good sharedInfo d c) :
    Inv sharedInfo (next sharedInfo d c) := by
  have hright := (right_iff hpage h c).mpr hgood
  cases c with
  | stop => exact ⟨h.mtu_lt, h.bufSize, h.room, hright⟩
  | «open» opens =>
    have hkept : (next sharedInfo d (.open opens)).mtu = d.mtu ∧
        (next sharedInfo d (.open opens)).rxBufSize = d.rxBufSize := by
      unfold next run
      dsimp only
      split
      · exact ⟨rfl, rfl⟩
      · exact ⟨rfl, rfl⟩
    obtain ⟨hmtu, hbuf⟩ := hkept
    refine ⟨?_, ?_, ?_, hright⟩
    · rw [hmtu]
      exact h.mtu_lt
    · rw [hmtu, hbuf]
      exact h.bufSize
    · rw [hmtu]
      exact h.room
  | changeMtu newMtu opens =>
    by_cases hrefused : refused sharedInfo newMtu
    · have hkept : next sharedInfo d (.changeMtu newMtu opens) = d :=
        congrArg Prod.snd (feChangeMtu_refused hrefused)
      rw [hkept]
      exact h
    · obtain ⟨hmtu, -, hbuf, -⟩ := feChangeMtu_accepted hpage opens h hrefused
      obtain ⟨-, hlt, hframe⟩ := of_accepted hpage hrefused
      refine ⟨?_, ?_, ?_, hright⟩
      · show (feChangeMtu sharedInfo newMtu opens d).2.mtu.toNat < _
        rw [hmtu]
        exact hlt
      · show (feChangeMtu sharedInfo newMtu opens d).2.rxBufSize.toNat =
          if (feChangeMtu sharedInfo newMtu opens d).2.mtu.toNat ≤ 1500 then _ else _
        rw [hmtu]
        exact hbuf
      · show 1500 < (feChangeMtu sharedInfo newMtu opens d).2.mtu.toNat → _
        intro _ hfits
        have hfits' : SumFits newMtu := hmtu ▸ hfits
        have hle := hframe hfits'
        show (feChangeMtu sharedInfo newMtu opens d).2.mtu.toNat + 26 ≤ _
        rw [hmtu]
        omega

end

end Iot7688.RalinkMtu
