import Iot7688.Lib.Register
import Iot7688.Lib.Run

/-!
The VLAN table of the rt3052 switch. It has 16 slots, each with a VLAN id and the ports of
this VLAN, and a flag for each port says whether it is untagged. The flags are changed while
the ports of a call are still being checked.
-/
namespace Iot7688.EswVlans

open Lib Lib.Register

structure EswPort where
  disable : Bool
  doubletag : Bool
  untag : Bool
  led : BitVec 8
  pvid : BitVec 16

structure EswVlan where
  ports : BitVec 8
  vid : BitVec 16

structure Esw where
  globalVlanEnable : Bool
  altVlanDisable : Bool
  bcStormProtect : BitVec 32
  ledFrequency : BitVec 32
  vlans : ℕ → EswVlan
  ports : ℕ → EswPort

structure SwitchPort where
  id : ℕ
  flags : BitVec 32

structure SwitchVal where
  portVlan : ℤ
  ports : List SwitchPort

/-- RT305X_ESW_VLAN_NONE -/
def vlanNone : BitVec 16 := 0xfff

/-- The registers by their offsets. -/
abbrev Regs := ℕ → BitVec 32

def eswRmw (regs : Regs) (reg : ℕ) (mask val : BitVec 32) : Regs :=
  Function.update regs reg ((regs reg &&& ~~~mask) ||| val)

def eswGetVlanId (regs : Regs) (vlan : ℕ) : BitVec 32 :=
  let s := 12 * (vlan % 2)
  (regs (0x50 + 4 * (vlan / 2)) >>> s) &&& 0xfff#32

def eswSetVlanId (regs : Regs) (vlan : ℕ) (vid : BitVec 32) : Regs :=
  let s := 12 * (vlan % 2)
  eswRmw regs (0x50 + 4 * (vlan / 2)) (0xfff#32 <<< s) ((vid &&& 0xfff#32) <<< s)

def eswSetPvid (regs : Regs) (port : ℕ) (pvid : BitVec 32) : Regs :=
  let s := 12 * (port % 2)
  eswRmw regs (0x40 + 4 * (port / 2)) (0xfff#32 <<< s) ((pvid &&& 0xfff#32) <<< s)

def eswGetVmsc (regs : Regs) (vlan : ℕ) : BitVec 32 :=
  let s := 8 * (vlan % 4)
  (regs (0x70 + 4 * (vlan / 4)) >>> s) &&& 0xff#32

def eswSetVmsc (regs : Regs) (vlan : ℕ) (msc : BitVec 32) : Regs :=
  let s := 8 * (vlan % 4)
  eswRmw regs (0x70 + 4 * (vlan / 4)) (0xff#32 <<< s) ((msc &&& 0xff#32) <<< s)

/-- The write is given up when the hardware does not get ready. -/
def rt305xMiiWrite (ready : Bool) (regs : Regs) (phyAddr phyRegister writeData : BitVec 32) :
    Regs :=
  if ready then
    Function.update regs 0xc0
      (((writeData &&& 0xffff#32) <<< 16) ||| (phyRegister <<< 8) ||| phyAddr ||| (1#32 <<< 13))
  else regs

def eswGetPortDisable (regs : Regs) : BitVec 32 := (regs 0x90 >>> 23) &&& 0x7f#32

/-- The control register of a PHY is register 0; it is written to power the PHY down or to
start it again. -/
def setPhyPower (ready : ℕ → Bool) (changed disableMask : BitVec 32) (regs : Regs) (i : ℕ) :
    Regs :=
  if changed.getLsbD i = false then regs
  else if disableMask.getLsbD i then rt305xMiiWrite (ready i) regs (BitVec.ofNat 32 i) 0 0x800
  else rt305xMiiWrite (ready i) regs (BitVec.ofNat 32 i) 0 (0x100 ||| 0x1000 ||| 0x200 ||| 0x2000)

def eswSetPortDisable (ready : ℕ → Bool) (regs : Regs) (disableMask : BitVec 32) : Regs :=
  let oldMask := eswGetPortDisable regs
  let changed := oldMask ^^^ disableMask
  let enableMask := oldMask &&& disableMask
  let regs := eswRmw regs 0x90 (0x7f#32 <<< 23) (enableMask <<< 23)
  let regs := (List.range 5).foldl (setPhyPower ready changed disableMask) regs
  eswRmw regs 0x90 (0x7f#32 <<< 23) (disableMask <<< 23)

def eswSetGsc (esw : Esw) (regs : Regs) : Regs :=
  let regs := eswRmw regs 0x9c (3#32 <<< 4) (esw.bcStormProtect <<< 4)
  eswRmw regs 0x9c (3#32 <<< 23) (esw.ledFrequency <<< 23)

/-- The masks that esw_apply_config collects from the ports, and the registers. -/
structure Applied where
  disable : BitVec 8
  doubletag : BitVec 8
  enVlan : BitVec 8
  untag : BitVec 8
  regs : Regs

def applyVlan (esw : Esw) (regs : Regs) (i : ℕ) : Regs :=
  let vid := if esw.globalVlanEnable then (esw.vlans i).vid else vlanNone
  let vmsc := if esw.globalVlanEnable then (esw.vlans i).ports else 0
  eswSetVmsc (eswSetVlanId regs i (vid.setWidth 32)) i (vmsc.setWidth 32)

def bit (b : Bool) (i : ℕ) : BitVec 8 := (BitVec.ofBool b).setWidth 8 <<< i

def applyPort (esw : Esw) (a : Applied) (i : ℕ) : Applied :=
  let on := esw.globalVlanEnable
  let x := !esw.altVlanDisable
  let pvid := if on then (esw.ports i).pvid else 0
  let regs := eswSetPvid a.regs i (pvid.setWidth 32)
  { disable := a.disable ||| bit (esw.ports i).disable i
    doubletag := a.doubletag ||| bit (if on then (esw.ports i).doubletag else x) i
    enVlan := a.enVlan ||| bit (if on then true else x) i
    untag := a.untag ||| bit (if on then (esw.ports i).untag else x) i
    regs :=
      if i < 5 then Function.update regs (0xa4 + 4 * i) ((esw.ports i).led.setWidth 32) else regs }

def eswApplyConfig (ready : ℕ → Bool) (esw : Esw) (regs : Regs) : Regs :=
  let regs := (List.range 16).foldl (applyVlan esw) regs
  let a := (List.range 7).foldl (applyPort esw) ⟨0, 0, 0, 0, regs⟩
  let regs := eswSetGsc esw a.regs
  let regs := eswSetPortDisable ready regs (a.disable.setWidth 32)
  let regs := eswRmw regs 0xe4 0x7f (a.doubletag.setWidth 32)
  let regs := eswRmw regs 0x14 (0xff#32 <<< 16) (a.enVlan.setWidth 32 <<< 16)
  let regs := eswRmw regs 0x98 0xff (a.untag.setWidth 32)
  if esw.globalVlanEnable = false then eswSetVmsc (eswSetVlanId regs 0 0) 0 0x7f else regs

/-- The VLAN id is in 0..4095, none stands for an error. -/
def eswGetVlanPorts (regs : Regs) (portVlan : ℤ) : Option (List SwitchPort) :=
  if portVlan < 0 ∨ 4096 ≤ portVlan then none
  else
    match (List.range 16).find? fun i =>
        decide ((eswGetVlanId regs i).toNat = portVlan) && eswGetVmsc regs i != 0 with
    | none => none
    | some vlanIdx =>
        let vmsc := eswGetVmsc regs vlanIdx
        let poc2 := regs 0x98
        some (((List.range 7).filter fun i => vmsc.getLsbD i).map fun i =>
          ⟨i, if poc2.getLsbD i then 0 else 1⟩)

/-- The loop over the ports of a call. The flags of the ports before one that does not
exist stay changed. -/
def listPorts : List SwitchPort → BitVec 32 → (ℕ → EswPort) → Option (BitVec 32) × (ℕ → EswPort)
  | [], mask, ports => (some mask, ports)
  | p :: rest, mask, ports =>
      let untagged := !p.flags.getLsbD 0
      if 7 ≤ p.id then (none, ports)
      else
        listPorts rest (mask ||| 1#32 <<< p.id)
          (Function.update ports p.id { ports p.id with untag := untagged })

/-- The slot of a VLAN that is defined, or else a free one. -/
def vlanSlot (esw : Esw) (portVlan : ℤ) : Option ℕ :=
  ((List.range 16).find? fun i =>
    decide ((esw.vlans i).vid.toNat = portVlan) && (esw.vlans i).ports != 0).or
  ((List.range 16).find? fun i => (esw.vlans i).ports == 0)

/-- Whether the call returns 0. -/
def eswSetVlanPorts (val : SwitchVal) (esw : Esw) : Bool × Esw :=
  if val.portVlan < 0 ∨ 4096 ≤ val.portVlan ∨ 7 < val.ports.length then (false, esw)
  else
    match vlanSlot esw val.portVlan with
    | none => (false, esw)
    | some vlanIdx =>
        match listPorts val.ports 0 esw.ports with
        | (none, ports) => (false, { esw with ports := ports })
        | (some mask, ports) =>
            let vid := if mask = 0 then vlanNone else BitVec.ofInt 16 val.portVlan
            (true, { esw with
              ports := ports
              vlans := Function.update esw.vlans vlanIdx ⟨mask.setWidth 8, vid⟩ })

section

variable {regs : Regs} {i j r : ℕ} {v : BitVec 32}

theorem eswSetVlanId_eq : eswSetVlanId regs i v = putEntry regs 0x50 4 2 12 i v := rfl

theorem eswSetVmsc_eq : eswSetVmsc regs i v = putEntry regs 0x70 4 4 8 i v := rfl

theorem eswGetVlanId_eq : eswGetVlanId regs i = entry regs 0x50 4 2 12 i := rfl

theorem eswGetVmsc_eq : eswGetVmsc regs i = entry regs 0x70 4 4 8 i := rfl

/-- The registers of the VLAN table are left alone. -/
def Keeps (regs regs' : Regs) : Prop := ∀ r, 0x50 ≤ r → r < 0x80 → regs' r = regs r

theorem Keeps.trans {regs' regs'' : Regs} (h : Keeps regs regs') (h' : Keeps regs' regs'') :
    Keeps regs regs'' := fun r hlow hhigh => (h' r hlow hhigh).trans (h r hlow hhigh)

theorem keeps_update (h : r < 0x50 ∨ 0x80 ≤ r) : Keeps regs (Function.update regs r v) := by
  intro r' hlow hhigh
  exact Function.update_of_ne (by omega) _ _

theorem keeps_eswRmw {mask : BitVec 32} (h : r < 0x50 ∨ 0x80 ≤ r) :
    Keeps regs (eswRmw regs r mask v) := keeps_update h

theorem keeps_rt305xMiiWrite {ready : Bool} {a b c : BitVec 32} :
    Keeps regs (rt305xMiiWrite ready regs a b c) := by
  unfold rt305xMiiWrite
  split
  · exact keeps_update (by decide)
  · exact fun _ _ _ => rfl

theorem keeps_setPhyPower {ready : ℕ → Bool} {changed mask : BitVec 32} :
    Keeps regs (setPhyPower ready changed mask regs i) := by
  unfold setPhyPower
  split
  · exact fun _ _ _ => rfl
  · split
    · exact keeps_rt305xMiiWrite
    · exact keeps_rt305xMiiWrite

theorem keeps_eswSetPortDisable {ready : ℕ → Bool} {mask : BitVec 32} :
    Keeps regs (eswSetPortDisable ready regs mask) := by
  have hreg : 0x90 < 0x50 ∨ 0x80 ≤ 0x90 := by decide
  have hloop (changed : BitVec 32) (regs : Regs) :
      Keeps regs ((List.range 5).foldl (setPhyPower ready changed mask) regs) :=
    foldl_range (fun _ regs' => Keeps regs regs') (fun _ _ _ => rfl)
      fun _ _ _ hkeeps => hkeeps.trans keeps_setPhyPower
  unfold eswSetPortDisable
  exact ((keeps_eswRmw hreg).trans (hloop _ _)).trans (keeps_eswRmw hreg)

theorem keeps_eswSetGsc {esw : Esw} : Keeps regs (eswSetGsc esw regs) :=
  (keeps_eswRmw (by decide)).trans (keeps_eswRmw (by decide))

theorem keeps_applyPort {esw : Esw} {a : Applied} (hi : i < 7) :
    Keeps a.regs (applyPort esw a i).regs := by
  have hpvid (v : BitVec 32) : Keeps a.regs (eswSetPvid a.regs i v) := keeps_update (by omega)
  unfold applyPort
  dsimp only
  split
  · exact (hpvid _).trans (keeps_update (by omega))
  · exact hpvid _

variable {esw : Esw}

/-- The slots in the registers after the first loop of esw_apply_config. -/
theorem applyVlan_spec (hon : esw.globalVlanEnable = true) (regs : Regs) (hi : i < 16) :
    eswGetVlanId ((List.range 16).foldl (applyVlan esw) regs) i =
        (esw.vlans i).vid.setWidth 32 &&& ones 32 12 ∧
      eswGetVmsc ((List.range 16).foldl (applyVlan esw) regs) i =
        (esw.vlans i).ports.setWidth 32 &&& ones 32 8 := by
  refine foldl_range (fun k regs' => ∀ i < k, i < 16 →
    eswGetVlanId regs' i = (esw.vlans i).vid.setWidth 32 &&& ones 32 12 ∧
      eswGetVmsc regs' i = (esw.vlans i).ports.setWidth 32 &&& ones 32 8)
    (fun _ h => absurd h (Nat.not_lt_zero _)) (fun k hk regs' ih i hik hi => ?_) i hi hi
  have hstep : applyVlan esw regs' k =
      putEntry (putEntry regs' 0x50 4 2 12 k ((esw.vlans k).vid.setWidth 32)) 0x70 4 4 8 k
        ((esw.vlans k).ports.setWidth 32) := by
    unfold applyVlan
    dsimp only
    rw [if_pos hon, if_pos hon, eswSetVmsc_eq, eswSetVlanId_eq]
  have hapart : 0x50 + 4 * (i / 2) ≠ 0x70 + 4 * (k / 4) := by omega
  have hapart' : 0x70 + 4 * (i / 4) ≠ 0x50 + 4 * (k / 2) := by omega
  have hvid : eswGetVlanId (applyVlan esw regs' k) i =
      if i = k then (esw.vlans k).vid.setWidth 32 &&& ones 32 12 else eswGetVlanId regs' i := by
    rw [hstep, eswGetVlanId_eq, entry, putEntry_of_ne hapart, eswGetVlanId_eq]
    exact entry_putEntry (by decide) (by decide) (by decide)
  have hvmsc : eswGetVmsc (applyVlan esw regs' k) i =
      if i = k then (esw.vlans k).ports.setWidth 32 &&& ones 32 8 else eswGetVmsc regs' i := by
    rw [hstep, eswGetVmsc_eq, entry_putEntry (by decide) (by decide) (by decide), entry,
      putEntry_of_ne hapart', eswGetVmsc_eq, entry]
  rw [hvid, hvmsc]
  by_cases hlast : i = k
  · rw [if_pos hlast, if_pos hlast, hlast]
    exact ⟨rfl, rfl⟩
  · rw [if_neg hlast, if_neg hlast]
    exact ih i (by omega) hi

/-- The untag mask after the second loop. -/
theorem applyPort_untag (hon : esw.globalVlanEnable = true) (regs : Regs) (hi : i < 7) :
    ((List.range 7).foldl (applyPort esw) ⟨0, 0, 0, 0, regs⟩).untag.getLsbD i =
      (esw.ports i).untag := by
  have hmask : ∀ i < 7, ((List.range 7).foldl (applyPort esw) ⟨0, 0, 0, 0, regs⟩).untag.getLsbD i =
      (decide (i < 7) && (esw.ports i).untag) := by
    refine foldl_range (fun k (a : Applied) => ∀ i < 7, a.untag.getLsbD i =
      (decide (i < k) && (esw.ports i).untag)) (fun _ _ => by simp) fun k hk a ih i hi => ?_
    have hbit : (bit (esw.ports k).untag k).getLsbD i =
        (decide (i = k) && (esw.ports k).untag) := by
      unfold bit
      rw [BitVec.getLsbD_shiftLeft, BitVec.getLsbD_setWidth]
      by_cases hik : i = k
      · subst hik
        simp
        omega
      · by_cases hlt : i < k
        · simp [hik, hlt]
        · have hpos : 1 ≤ i - k := by omega
          simp [hik]
          intros
          omega
    have hstep : (applyPort esw a k).untag = a.untag ||| bit (esw.ports k).untag k := by
      unfold applyPort
      dsimp only
      rw [if_pos hon]
    rw [hstep, BitVec.getLsbD_or, ih i hi, hbit]
    by_cases hik : i = k
    · simp [hik]
    · have hlt : i < k + 1 ↔ i < k := by omega
      simp [hik, hlt]
  rw [hmask i hi, decide_eq_true hi, Bool.true_and]

variable {ready : ℕ → Bool}

/-- What esw_apply_config leaves in the registers when VLANs are enabled. -/
structure Stored (esw : Esw) (regs : Regs) : Prop where
  vid : ∀ i < 16, eswGetVlanId regs i = (esw.vlans i).vid.setWidth 32 &&& ones 32 12
  vmsc : ∀ i < 16, eswGetVmsc regs i = (esw.vlans i).ports.setWidth 32 &&& ones 32 8
  untag : ∀ i < 7, (regs 0x98).getLsbD i = (esw.ports i).untag

theorem stored_apply (hon : esw.globalVlanEnable = true) (regs : Regs) :
    Stored esw (eswApplyConfig ready esw regs) := by
  have hports (regs : Regs) :
      Keeps regs ((List.range 7).foldl (applyPort esw) ⟨0, 0, 0, 0, regs⟩).regs :=
    foldl_range (fun _ (a : Applied) => Keeps regs a.regs) (fun _ _ _ => rfl)
      fun _ hk _ hkeeps => hkeeps.trans (keeps_applyPort hk)
  have huntag (i : ℕ) (hi : i < 7) :=
    applyPort_untag hon ((List.range 16).foldl (applyVlan esw) regs) hi
  have hslots := hports ((List.range 16).foldl (applyVlan esw) regs)
  unfold eswApplyConfig
  dsimp only
  rw [if_neg (by simp [hon])]
  generalize (List.range 7).foldl (applyPort esw) _ = a at huntag hslots ⊢
  have hkeeps : Keeps ((List.range 16).foldl (applyVlan esw) regs)
      (eswRmw (eswRmw (eswRmw (eswSetPortDisable ready (eswSetGsc esw a.regs)
        (a.disable.setWidth 32)) 0xe4 0x7f (a.doubletag.setWidth 32)) 0x14 (0xff#32 <<< 16)
        (a.enVlan.setWidth 32 <<< 16)) 0x98 0xff (a.untag.setWidth 32)) := by
    have hsgc2 : 0xe4 < 0x50 ∨ 0x80 ≤ 0xe4 := by decide
    have hpfc1 : 0x14 < 0x50 ∨ 0x80 ≤ 0x14 := by decide
    have hpoc2 : 0x98 < 0x50 ∨ 0x80 ≤ 0x98 := by decide
    apply Keeps.trans _ (keeps_eswRmw hpoc2)
    apply Keeps.trans _ (keeps_eswRmw hpfc1)
    apply Keeps.trans _ (keeps_eswRmw hsgc2)
    apply Keeps.trans _ keeps_eswSetPortDisable
    exact hslots.trans keeps_eswSetGsc
  refine ⟨fun i hi => ?_, fun i hi => ?_, fun i hi => ?_⟩
  · rw [← (applyVlan_spec hon regs hi).1, eswGetVlanId, eswGetVlanId,
      hkeeps _ (Nat.le_add_right _ _) (by omega)]
  · rw [← (applyVlan_spec hon regs hi).2, eswGetVmsc, eswGetVmsc,
      hkeeps _ (by omega) (by omega)]
  · rw [← huntag i hi, eswRmw, Function.update_self]
    have hlow : (0xff : BitVec 32).getLsbD i = true := by
      show (ones 32 8).getLsbD i = true
      rw [getLsbD_ones, Bool.and_eq_true, decide_eq_true_eq, decide_eq_true_eq]
      omega
    have hlt : i < 32 := by omega
    rw [BitVec.getLsbD_or, BitVec.getLsbD_and, BitVec.getLsbD_not, BitVec.getLsbD_setWidth, hlow,
      decide_eq_true hlt, Bool.not_true, Bool.and_false, Bool.and_false, Bool.false_or,
      Bool.true_and]

end

/-- A port belongs to a VLAN. -/
def Member (esw : Esw) (v : ℤ) (p : ℕ) : Prop :=
  ∃ i < 16, (esw.vlans i).vid.toNat = v ∧ (esw.vlans i).ports.getLsbD p = true

/-- The slot holds this VLAN. -/
def Holds (esw : Esw) (v : ℤ) (i : ℕ) : Prop :=
  i < 16 ∧ (esw.vlans i).vid.toNat = v ∧ (esw.vlans i).ports ≠ 0

/-- At most one slot with ports holds a given VLAN id. -/
def Unique (esw : Esw) : Prop := ∀ v i j, Holds esw v i → Holds esw v j → i = j

/-- The untag flag of a port after the settings of a list, the last of which counts. -/
def lastUntag (p : ℕ) (untag : Bool) (settings : List SwitchPort) : Bool :=
  settings.foldl (fun u q => if q.id = p then !q.flags.getLsbD 0 else u) untag

/-- What a call that returns 0 does. -/
structure Done (val : SwitchVal) (esw esw' : Esw) : Prop where
  members : ∀ p, Member esw' val.portVlan p ↔ ∃ q ∈ val.ports, q.id = p
  others : ∀ v, v ≠ val.portVlan → ∀ p, Member esw' v p ↔ Member esw v p
  untag : ∀ p, (esw'.ports p).untag = lastUntag p (esw.ports p).untag val.ports

/-- With VLANs enabled the registers hold every VLAN that is defined, with the tags of its
ports. -/
def ReadsBack (esw : Esw) : Prop :=
  ∀ ready regs v, (∃ i, Holds esw v i) →
    ∃ out, eswGetVlanPorts
        (eswApplyConfig ready { esw with globalVlanEnable := true } regs) v = some out ∧
      (out.map SwitchPort.id).Pairwise (· < ·) ∧
      ∀ q, q ∈ out ↔ Member esw v q.id ∧ q.flags = if (esw.ports q.id).untag then 0 else 1

def next (esw : Esw) (val : SwitchVal) : Esw := (eswSetVlanPorts val esw).2

structure Right (esw : Esw) (val : SwitchVal) : Prop where
  unique : Unique (next esw val)
  readsBack : ReadsBack (next esw val)
  done : (eswSetVlanPorts val esw).1 = true → Done val esw (next esw val)
  kept : (eswSetVlanPorts val esw).1 = false → next esw val = esw

/-- The ports that stand before one that does not exist are set as they already are. -/
def Good (esw : Esw) (val : SwitchVal) : Prop :=
  0 ≤ val.portVlan → val.portVlan < 4096 → val.ports.length ≤ 7 →
    vlanSlot esw val.portVlan ≠ none → (∃ q ∈ val.ports, 7 ≤ q.id) →
      ∀ p, lastUntag p (esw.ports p).untag (val.ports.takeWhile fun q => decide (q.id < 7)) =
        (esw.ports p).untag

/-- A table without VLANs. -/
def Empty (esw : Esw) : Prop := ∀ i, (esw.vlans i).ports = 0 ∧ (esw.vlans i).vid = 0

structure Inv (esw : Esw) : Prop where
  unique : Unique esw
  ports_lt : ∀ i p, (esw.vlans i).ports.getLsbD p = true → p < 7
  vid_lt : ∀ i, (esw.vlans i).vid.toNat < 4096

theorem inv_of_empty {esw : Esw} (h : Empty esw) : Inv esw where
  unique := fun _ i _ hi => absurd (h i).1 hi.2.2
  ports_lt := by
    intro i p hp
    rw [(h i).1] at hp
    simp at hp
  vid_lt := by
    intro i
    rw [(h i).2]
    decide

section

variable {l : List SwitchPort} {mask : BitVec 32} {ports : ℕ → EswPort}

theorem lastUntag_cons (p : ℕ) (u : Bool) (q : SwitchPort) :
    lastUntag p u (q :: l) = lastUntag p (if q.id = p then !q.flags.getLsbD 0 else u) l := rfl

theorem listPorts_ports : (listPorts l mask ports).2 = fun p =>
    { ports p with
      untag := lastUntag p (ports p).untag (l.takeWhile fun q => decide (q.id < 7)) } := by
  induction l generalizing mask ports with
  | nil => rfl
  | cons q rest ih =>
    unfold listPorts
    dsimp only
    by_cases hbad : 7 ≤ q.id
    · rw [if_pos hbad, List.takeWhile_cons_of_neg (by simpa using hbad)]
      rfl
    · rw [if_neg hbad, List.takeWhile_cons_of_pos (by simpa using hbad), ih]
      funext p
      by_cases hp : p = q.id
      · rw [hp, Function.update_self, lastUntag_cons, if_pos rfl]
      · rw [Function.update_of_ne hp, lastUntag_cons, if_neg fun h => hp h.symm]

theorem listPorts_bad (h : ∃ q ∈ l, 7 ≤ q.id) : (listPorts l mask ports).1 = none := by
  induction l generalizing mask ports with
  | nil =>
    obtain ⟨q, hq, -⟩ := h
    exact absurd hq List.not_mem_nil
  | cons q rest ih =>
    unfold listPorts
    dsimp only
    by_cases hbad : 7 ≤ q.id
    · rw [if_pos hbad]
    · rw [if_neg hbad]
      obtain ⟨q', hmem, hq'⟩ := h
      rcases List.mem_cons.mp hmem with rfl | hrest
      · exact absurd hq' hbad
      · exact ih ⟨q', hrest, hq'⟩

theorem listPorts_mask (mask : BitVec 32) (ports : ℕ → EswPort) (h : ∀ q ∈ l, q.id < 7) :
    ∃ m, (listPorts l mask ports).1 = some m ∧
      ∀ i, m.getLsbD i = true ↔ mask.getLsbD i = true ∨ ∃ q ∈ l, q.id = i := by
  induction l generalizing mask ports with
  | nil =>
    refine ⟨mask, rfl, fun i => ⟨Or.inl, ?_⟩⟩
    rintro (h | ⟨q, hq, -⟩)
    · exact h
    · exact absurd hq List.not_mem_nil
  | cons q rest ih =>
    have hq := h q List.mem_cons_self
    unfold listPorts
    dsimp only
    rw [if_neg (Nat.not_le_of_lt hq)]
    obtain ⟨m, hm, hbits⟩ := ih _ _ fun q' hq' => h q' (List.mem_cons_of_mem q hq')
    refine ⟨m, hm, fun i => ?_⟩
    have hbit : (1#32 <<< q.id).getLsbD i = decide (q.id = i) := by
      rw [BitVec.getLsbD_shiftLeft, BitVec.getLsbD_one]
      by_cases hi : q.id = i
      · subst hi
        simp
        omega
      · simp [hi]
        omega
    rw [hbits, BitVec.getLsbD_or, hbit, Bool.or_eq_true, decide_eq_true_eq, or_assoc]
    simp only [List.mem_cons, exists_eq_or_imp]

end

section

variable {esw : Esw} {v : ℤ} {i : ℕ}

theorem vlanSlot_some (h : vlanSlot esw v = some i) :
    Holds esw v i ∨ (i < 16 ∧ (esw.vlans i).ports = 0 ∧ ∀ j, ¬Holds esw v j) := by
  unfold vlanSlot at h
  rcases Option.or_eq_some_iff.mp h with hold | ⟨hnone, hfree⟩
  · have hmem := List.mem_of_find?_eq_some hold
    have htest := List.find?_some hold
    rw [Bool.and_eq_true, decide_eq_true_eq, bne_iff_ne] at htest
    exact Or.inl ⟨List.mem_range.mp hmem, htest⟩
  · have hmem := List.mem_of_find?_eq_some hfree
    have htest := List.find?_some hfree
    refine Or.inr ⟨List.mem_range.mp hmem, beq_iff_eq.mp htest, ?_⟩
    rintro j ⟨hj, hvid, hports⟩
    have hno := List.find?_eq_none.mp hnone j (List.mem_range.mpr hj)
    rw [Bool.and_eq_true, decide_eq_true_eq, bne_iff_ne] at hno
    exact hno ⟨hvid, hports⟩

theorem ports_ne_zero {ports : BitVec 8} {p : ℕ} (h : ports.getLsbD p = true) : ports ≠ 0 := by
  rintro rfl
  simp at h

/-- A member of a VLAN stands in the only slot of the VLAN. -/
theorem member_iff (hunique : Unique esw) (h : Holds esw v i) (p : ℕ) :
    Member esw v p ↔ (esw.vlans i).ports.getLsbD p = true := by
  constructor
  · rintro ⟨j, hj, hvid, hp⟩
    rw [hunique v i j h ⟨hj, hvid, ports_ne_zero hp⟩]
    exact hp
  · intro hp
    exact ⟨i, h.1, h.2.1, hp⟩

variable {mask : BitVec 8} {vid : BitVec 16} {ports : ℕ → EswPort}

/-- The configuration behind the call: a slot is filled, or freed when no port is listed. -/
def filled (esw : Esw) (i : ℕ) (mask : BitVec 8) (vid : BitVec 16) (ports : ℕ → EswPort) : Esw :=
  { esw with ports := ports, vlans := Function.update esw.vlans i ⟨mask, vid⟩ }

theorem holds_filled {u : ℤ} {j : ℕ} (hi : i < 16) : Holds (filled esw i mask vid ports) u j ↔
    if j = i then vid.toNat = u ∧ mask ≠ 0 else Holds esw u j := by
  unfold Holds filled
  dsimp only
  by_cases hj : j = i
  · rw [hj, Function.update_self, if_pos rfl]
    exact and_iff_right hi
  · rw [Function.update_of_ne hj, if_neg hj]

theorem member_filled {u : ℤ} {p : ℕ} (hi : i < 16) :
    Member (filled esw i mask vid ports) u p ↔ (vid.toNat = u ∧ mask.getLsbD p = true) ∨
      ∃ j < 16, j ≠ i ∧ (esw.vlans j).vid.toNat = u ∧ (esw.vlans j).ports.getLsbD p = true := by
  unfold Member filled
  dsimp only
  constructor
  · rintro ⟨j, hj, hm⟩
    by_cases hji : j = i
    · rw [hji, Function.update_self] at hm
      exact Or.inl hm
    · rw [Function.update_of_ne hji] at hm
      exact Or.inr ⟨j, hj, hji, hm⟩
  · rintro (hm | ⟨j, hj, hji, hm⟩)
    · refine ⟨i, hi, ?_⟩
      rw [Function.update_self]
      exact hm
    · refine ⟨j, hj, ?_⟩
      rw [Function.update_of_ne hji]
      exact hm

section

variable (hslot : vlanSlot esw v = some i)

include hslot

theorem slot_lt : i < 16 := by
  rcases vlanSlot_some hslot with hholds | ⟨hi, -, -⟩
  · exact hholds.1
  · exact hi

/-- The slot holds no other VLAN. -/
theorem this_slot {u : ℤ} (hu : u ≠ v) : ¬Holds esw u i := by
  rcases vlanSlot_some hslot with hholds | ⟨-, hfree, -⟩
  · exact fun hholds' => hu (hholds'.2.1.symm.trans hholds.2.1)
  · exact fun hholds' => hholds'.2.2 hfree

variable (h : Inv esw) (hvid : mask ≠ 0 → vid.toNat = v)

include h

/-- No other slot holds the VLAN. -/
theorem other_slot {j : ℕ} (hj : j ≠ i) : ¬Holds esw v j := by
  rcases vlanSlot_some hslot with hholds | ⟨-, -, hnone⟩
  · exact fun hholds' => hj (h.unique v j i hholds' hholds)
  · exact hnone j

include hvid

theorem unique_filled : Unique (filled esw i mask vid ports) := by
  intro u j k hj hk
  rw [holds_filled (slot_lt hslot)] at hj hk
  by_cases hji : j = i
  · by_cases hki : k = i
    · exact hji.trans hki.symm
    · rw [if_pos hji] at hj
      rw [if_neg hki, ← hj.1, hvid hj.2] at hk
      exact absurd hk (other_slot hslot h hki)
  · rw [if_neg hji] at hj
    by_cases hki : k = i
    · rw [if_pos hki] at hk
      rw [← hk.1, hvid hk.2] at hj
      exact absurd hj (other_slot hslot h hji)
    · rw [if_neg hki] at hk
      exact h.unique u j k hj hk

theorem member_filled_same (p : ℕ) :
    Member (filled esw i mask vid ports) v p ↔ mask.getLsbD p = true := by
  rw [member_filled (slot_lt hslot)]
  constructor
  · rintro (⟨-, hp⟩ | ⟨j, hj, hji, hv, hp⟩)
    · exact hp
    · exact absurd ⟨hj, hv, ports_ne_zero hp⟩ (other_slot hslot h hji)
  · intro hp
    exact Or.inl ⟨hvid (ports_ne_zero hp), hp⟩

omit h in
theorem member_filled_other {u : ℤ} (hu : u ≠ v) (p : ℕ) :
    Member (filled esw i mask vid ports) u p ↔ Member esw u p := by
  rw [member_filled (slot_lt hslot)]
  constructor
  · rintro (⟨hvid', hp⟩ | ⟨j, hj, -, hm⟩)
    · exact absurd (hvid'.symm.trans (hvid (ports_ne_zero hp))) hu
    · exact ⟨j, hj, hm⟩
  · rintro ⟨j, hj, hv, hp⟩
    refine Or.inr ⟨j, hj, ?_, hv, hp⟩
    rintro rfl
    exact this_slot hslot hu ⟨hj, hv, ports_ne_zero hp⟩

theorem inv_filled (hlt : ∀ p, mask.getLsbD p = true → p < 7) (hvid_lt : vid.toNat < 4096) :
    Inv (filled esw i mask vid ports) where
  unique := unique_filled hslot h hvid
  ports_lt := by
    intro j p hp
    by_cases hji : j = i
    · have hnew : (Function.update esw.vlans i ⟨mask, vid⟩ j).ports.getLsbD p = true := hp
      rw [hji, Function.update_self] at hnew
      exact hlt p hnew
    · have hold : (Function.update esw.vlans i ⟨mask, vid⟩ j).ports.getLsbD p = true := hp
      rw [Function.update_of_ne hji] at hold
      exact h.ports_lt j p hold
  vid_lt := by
    intro j
    show (Function.update esw.vlans i ⟨mask, vid⟩ j).vid.toNat < 4096
    by_cases hji : j = i
    · rw [hji, Function.update_self]
      exact hvid_lt
    · rw [Function.update_of_ne hji]
      exact h.vid_lt j

end

end

section

variable {esw : Esw} {val : SwitchVal}

/-- What the call does: it is refused before it changes anything, it stops at a port that
does not exist, or it fills a slot. -/
theorem eswSetVlanPorts_cases (val : SwitchVal) (esw : Esw) :
    (eswSetVlanPorts val esw = (false, esw) ∧
      (val.portVlan < 0 ∨ 4096 ≤ val.portVlan ∨ 7 < val.ports.length ∨
        vlanSlot esw val.portVlan = none)) ∨
    ((0 ≤ val.portVlan ∧ val.portVlan < 4096 ∧ val.ports.length ≤ 7 ∧
        vlanSlot esw val.portVlan ≠ none ∧ ∃ q ∈ val.ports, 7 ≤ q.id) ∧
      eswSetVlanPorts val esw =
        (false, { esw with ports := (listPorts val.ports 0 esw.ports).2 })) ∨
    (0 ≤ val.portVlan ∧ val.portVlan < 4096 ∧ (∀ q ∈ val.ports, q.id < 7) ∧
      ∃ (i : ℕ) (mask : BitVec 32), vlanSlot esw val.portVlan = some i ∧
        (∀ p, mask.getLsbD p = true ↔ ∃ q ∈ val.ports, q.id = p) ∧
        eswSetVlanPorts val esw = (true, filled esw i (mask.setWidth 8)
          (if mask = 0 then vlanNone else BitVec.ofInt 16 val.portVlan)
          (listPorts val.ports 0 esw.ports).2)) := by
  unfold eswSetVlanPorts
  by_cases hrefused : val.portVlan < 0 ∨ 4096 ≤ val.portVlan ∨ 7 < val.ports.length
  · rw [if_pos hrefused]
    exact Or.inl ⟨rfl, by tauto⟩
  rw [if_neg hrefused]
  have hrange : 0 ≤ val.portVlan ∧ val.portVlan < 4096 ∧ val.ports.length ≤ 7 := by omega
  cases hslot : vlanSlot esw val.portVlan with
  | none => exact Or.inl ⟨rfl, by tauto⟩
  | some i =>
    dsimp only
    by_cases hbad : ∃ q ∈ val.ports, 7 ≤ q.id
    · have hnone : (listPorts val.ports 0 esw.ports).1 = none := listPorts_bad hbad
      refine Or.inr (Or.inl ⟨⟨hrange.1, hrange.2.1, hrange.2.2, by simp, hbad⟩, ?_⟩)
      generalize listPorts val.ports 0 esw.ports = r at hnone
      obtain ⟨m, ports⟩ := r
      obtain rfl : m = none := hnone
      rfl
    · have hall : ∀ q ∈ val.ports, q.id < 7 := fun q hq => by
        by_contra hge
        exact hbad ⟨q, hq, Nat.le_of_not_lt hge⟩
      obtain ⟨mask, hmask, hbits⟩ := listPorts_mask 0 esw.ports hall
      refine Or.inr (Or.inr ⟨hrange.1, hrange.2.1, hall, i, mask, rfl, fun p => ?_, ?_⟩)
      · rw [hbits]
        simp
      · generalize listPorts val.ports 0 esw.ports = r at hmask
        obtain ⟨m, ports⟩ := r
        obtain rfl : m = some mask := hmask
        rfl

end

section

variable {esw : Esw} {v : ℤ}

/-- What esw_get_vlan_ports finds in registers that hold the configuration. -/
theorem readsBack_of_inv (h : Inv esw) : ReadsBack esw := by
  intro ready regs v hdef
  have hstored : Stored { esw with globalVlanEnable := true }
      (eswApplyConfig ready { esw with globalVlanEnable := true } regs) := stored_apply rfl regs
  generalize eswApplyConfig ready { esw with globalVlanEnable := true } regs = regs' at hstored ⊢
  have hvid (i : ℕ) (hi : i < 16) : (eswGetVlanId regs' i).toNat = (esw.vlans i).vid.toNat := by
    rw [hstored.vid i hi, and_ones, BitVec.toNat_setWidth]
    · exact Nat.mod_eq_of_lt ((h.vid_lt i).trans (by decide))
    · rw [BitVec.toNat_setWidth]
      exact (Nat.mod_le _ _).trans_lt (h.vid_lt i)
  have hvmsc (i : ℕ) (hi : i < 16) : eswGetVmsc regs' i = (esw.vlans i).ports.setWidth 32 := by
    rw [hstored.vmsc i hi, and_ones]
    rw [BitVec.toNat_setWidth]
    exact (Nat.mod_le _ _).trans_lt (esw.vlans i).ports.isLt
  have htest (i : ℕ) (hi : i < 16) :
      (decide ((eswGetVlanId regs' i).toNat = v) && eswGetVmsc regs' i != 0) = true ↔
        Holds esw v i := by
    have hzero : (esw.vlans i).ports.setWidth 32 = 0 ↔ (esw.vlans i).ports = 0 := by
      rw [← BitVec.toNat_inj, ← BitVec.toNat_inj, BitVec.toNat_setWidth]
      have hlt := (esw.vlans i).ports.isLt
      rw [Nat.mod_eq_of_lt (by omega)]
      rfl
    rw [Bool.and_eq_true, decide_eq_true_eq, bne_iff_ne, hvid i hi, hvmsc i hi, Ne, hzero]
    exact (and_iff_right hi).symm
  obtain ⟨j, hj⟩ := hdef
  have hv : ¬(v < 0 ∨ 4096 ≤ v) := by
    have hlt := h.vid_lt j
    have heq := hj.2.1
    omega
  have hslot : ∃ i, (List.range 16).find? (fun i =>
      decide ((eswGetVlanId regs' i).toNat = v) && eswGetVmsc regs' i != 0) = some i := by
    rw [← Option.isSome_iff_exists, List.find?_isSome]
    exact ⟨j, List.mem_range.mpr hj.1, (htest j hj.1).mpr hj⟩
  obtain ⟨i, hfind⟩ := hslot
  have hi := List.mem_range.mp (List.mem_of_find?_eq_some hfind)
  have hfound := List.find?_some hfind
  have hholds := (htest i hi).mp hfound
  unfold eswGetVlanPorts
  rw [if_neg hv, hfind]
  refine ⟨_, rfl, ?_, fun q => ?_⟩
  · rw [List.map_map]
    show (((List.range 7).filter _).map id).Pairwise (· < ·)
    rw [List.map_id]
    exact List.Pairwise.filter _ List.pairwise_lt_range
  · have hbit (p : ℕ) (hp : p < 7) :
        (eswGetVmsc regs' i).getLsbD p = (esw.vlans i).ports.getLsbD p := by
      rw [hvmsc i hi, BitVec.getLsbD_setWidth, decide_eq_true (by omega), Bool.true_and]
    rw [member_iff h.unique hholds, List.mem_map]
    constructor
    · rintro ⟨p, hp, rfl⟩
      obtain ⟨hrange, hmem⟩ := List.mem_filter.mp hp
      have hlt := List.mem_range.mp hrange
      rw [hbit p hlt] at hmem
      exact ⟨hmem, by rw [hstored.untag p hlt]⟩
    · rintro ⟨hmem, hflags⟩
      have hlt := h.ports_lt i q.id hmem
      refine ⟨q.id, List.mem_filter.mpr ⟨List.mem_range.mpr hlt, ?_⟩, ?_⟩
      · rw [hbit q.id hlt]
        exact hmem
      · rw [hstored.untag q.id hlt, ← hflags]

variable {val : SwitchVal}

theorem inv_ports (h : Inv esw) (ports : ℕ → EswPort) : Inv { esw with ports := ports } :=
  ⟨h.unique, h.ports_lt, h.vid_lt⟩

theorem takeWhile_all {l : List SwitchPort} (h : ∀ q ∈ l, q.id < 7) :
    l.takeWhile (fun q => decide (q.id < 7)) = l := by
  conv_lhs => rw [← List.append_nil l]
  rw [List.takeWhile_append_of_pos fun q hq => decide_eq_true (h q hq), List.takeWhile_nil,
    List.append_nil]

theorem right_iff (h : Inv esw) (val : SwitchVal) :
    (Right esw val ↔ Good esw val) ∧ Inv (next esw val) := by
  have right_of_kept (heq : eswSetVlanPorts val esw = (false, esw)) : Right esw val := by
    have hnext : next esw val = esw := congrArg Prod.snd heq
    refine ⟨hnext.symm ▸ h.unique, hnext.symm ▸ readsBack_of_inv h, fun hdone => ?_, fun _ => hnext⟩
    rw [heq] at hdone
    exact absurd hdone Bool.false_ne_true
  rcases eswSetVlanPorts_cases val esw with ⟨heq, hwhy⟩ | ⟨⟨hlow, hhigh, hlen, hslot, hbad⟩, heq⟩ |
    ⟨hlow, hhigh, hall, i, mask, hslot, hmask, heq⟩
  · have hnext : next esw val = esw := congrArg Prod.snd heq
    refine ⟨iff_of_true (right_of_kept heq) ?_, hnext.symm ▸ h⟩
    intro hlow hhigh hlen hslot
    rcases hwhy with h1 | h1 | h1 | h1
    · omega
    · omega
    · omega
    · exact absurd h1 hslot
  · have hnext : next esw val = { esw with ports := (listPorts val.ports 0 esw.ports).2 } :=
      congrArg Prod.snd heq
    have hinv := inv_ports h (listPorts val.ports 0 esw.ports).2
    refine ⟨⟨fun hright _ _ _ _ _ p => ?_, fun hgood => ?_⟩, hnext.symm ▸ hinv⟩
    · have hkept := hright.kept (congrArg Prod.fst heq)
      rw [hnext, listPorts_ports] at hkept
      exact congrArg (fun e : Esw => (e.ports p).untag) hkept
    · refine ⟨hnext.symm ▸ hinv.unique, hnext.symm ▸ readsBack_of_inv hinv, fun hdone => ?_,
        fun _ => ?_⟩
      · rw [heq] at hdone
        exact absurd hdone Bool.false_ne_true
      · have hsame : (listPorts val.ports 0 esw.ports).2 = esw.ports := by
          rw [listPorts_ports]
          funext p
          rw [hgood hlow hhigh hlen hslot hbad p]
        rw [hnext, hsame]
  · have hnext : next esw val = filled esw i (mask.setWidth 8)
        (if mask = 0 then vlanNone else BitVec.ofInt 16 val.portVlan)
        (listPorts val.ports 0 esw.ports).2 := congrArg Prod.snd heq
    have hlt (p : ℕ) (hp : (mask.setWidth 8).getLsbD p = true) : p < 7 := by
      rw [BitVec.getLsbD_setWidth, Bool.and_eq_true] at hp
      obtain ⟨q, hq, rfl⟩ := (hmask p).mp hp.2
      exact hall q hq
    have hvid : (mask.setWidth 8 ≠ (0 : BitVec 8)) →
        (if mask = 0 then vlanNone else BitVec.ofInt 16 val.portVlan).toNat = val.portVlan := by
      intro hne
      have hmask0 : mask ≠ 0 := by
        rintro rfl
        exact hne rfl
      rw [if_neg hmask0, BitVec.toNat_ofInt]
      omega
    have hvid_lt : (if mask = 0 then vlanNone else BitVec.ofInt 16 val.portVlan).toNat < 4096 := by
      by_cases hmask0 : mask = 0
      · rw [if_pos hmask0]
        decide
      · rw [if_neg hmask0, BitVec.toNat_ofInt]
        omega
    have hinv : Inv (next esw val) := hnext.symm ▸ inv_filled hslot h hvid hlt hvid_lt
    refine ⟨iff_of_true ⟨hinv.unique, readsBack_of_inv hinv, fun _ => ?_, fun hfail => ?_⟩ ?_, hinv⟩
    · rw [hnext]
      refine ⟨fun p => ?_, fun u hu p => ?_, fun p => ?_⟩
      · rw [member_filled_same hslot h hvid, ← hmask p, BitVec.getLsbD_setWidth, Bool.and_eq_true,
          decide_eq_true_eq, and_iff_right_iff_imp]
        intro hp
        obtain ⟨q, hq, rfl⟩ := (hmask p).mp hp
        exact (hall q hq).trans (by decide)
      · exact member_filled_other hslot hvid hu p
      · show ((listPorts val.ports 0 esw.ports).2 p).untag = _
        rw [listPorts_ports, takeWhile_all hall]
    · rw [heq] at hfail
      exact absurd hfail Bool.false_ne_true.symm
    · rintro - - - - ⟨q, hq, hbad⟩
      exact absurd (hall q hq) (Nat.not_lt_of_le hbad)

end

/-- The VLAN table is a finite map in every run in which the ports before one that does not
exist are set as they already are, and in no other run. -/
theorem vlan_table_iff {esw : Esw} (hempty : Empty esw) (calls : List SwitchVal) :
    Every next Right esw calls ↔ Every next Good esw calls := by
  have hkeep (esw : Esw) (val : SwitchVal) (h : Inv esw) (_ : Good esw val) :
      Inv (next esw val) := (right_iff h val).2
  exact every_iff hkeep (fun _ val h => (right_iff h val).1) calls (inv_of_empty hempty)

/-- The configuration of a switch that was just allocated. -/
def zeroed : Esw := ⟨false, false, 0, 0, fun _ => ⟨0, 0⟩, fun _ => ⟨false, false, false, 0, 0⟩⟩

/-- A VLAN with an untagged and a tagged port. -/
theorem vlan_one : Every next Right zeroed [⟨1, [⟨0, 0⟩, ⟨6, 1⟩]⟩] := by
  have hgood : Good zeroed ⟨1, [⟨0, 0⟩, ⟨6, 1⟩]⟩ := by
    intro _ _ _ _ hbad
    exact absurd hbad (by decide)
  exact (vlan_table_iff (fun _ => ⟨rfl, rfl⟩) _).mpr ⟨hgood, trivial⟩

/-- Port 7 does not exist, and the call leaves port 0 untagged. -/
theorem bad_port_untags : ¬Every next Right zeroed [⟨1, [⟨0, 0⟩, ⟨7, 0⟩]⟩] := by
  rintro ⟨hright, -⟩
  have hkept := congrArg (fun e : Esw => (e.ports 0).untag) (hright.kept (by decide))
  revert hkept
  decide

end Iot7688.EswVlans
