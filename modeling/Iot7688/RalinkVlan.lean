import Iot7688.Lib.Register
import Iot7688.Lib.Run
import Mathlib.Data.Fin.Basic

/-!
VLAN tag insertion of the ralink ethernet driver. The descriptor of a packet holds the low
four bits of its VLAN id, and the hardware inserts the id that a table of 16 entries holds
there. Additions and removals are skipped while the feature is off, and a removal frees an
entry that another id with the same low bits may be using.
-/
namespace Iot7688.RalinkVlan

open Lib Lib.Register

structure Dev where
  /-- The words from FE_REG_FE_DMA_VID_BASE on. -/
  vidBase : ℕ → BitVec 32
  vlanMap : ℕ → Bool
  /-- NETIF_F_HW_VLAN_CTAG_TX is among the features. -/
  ctagTx : Bool

/-- The loop of fe_hw_init over the table. -/
def feHwInit (regs : ℕ → BitVec 32) : ℕ → BitVec 32 :=
  (List.range 8).foldl (fun regs k =>
    let i := 2 * k
    Function.update regs (i * 2 / 4) ((BitVec.ofNat 32 (i + 1) <<< 16) + BitVec.ofNat 32 i)) regs

def feVlanRxAddVid (vid : ℕ) (d : Dev) : Dev :=
  let idx := vid &&& 0xf
  if d.ctagTx = false then d
  -- The feature is no longer wanted, and netdev_update_features turns it off.
  else if d.vlanMap idx = true then { d with ctagTx := false }
  else
    let cfg := d.vidBase (idx >>> 1)
    let cfg :=
      if idx &&& 1 ≠ 0 then (cfg &&& 0xffff#32) ||| (BitVec.ofNat 32 vid <<< 16)
      else (cfg &&& 0xffff0000#32) ||| BitVec.ofNat 32 vid
    { d with
      vidBase := Function.update d.vidBase (idx >>> 1) cfg
      vlanMap := Function.update d.vlanMap idx true }

def feVlanRxKillVid (vid : ℕ) (d : Dev) : Dev :=
  if d.ctagTx = false then d
  else { d with vlanMap := Function.update d.vlanMap (vid &&& 0xf) false }

/-- An entry of the table; a word holds two of them. -/
def entry (regs : ℕ → BitVec 32) (i : ℕ) : BitVec 32 :=
  field (regs (i / 2)) (16 * (i % 2)) (ones 32 16)

/-- What the hardware inserts for a tag with this id; fe_tx_map_dma puts `tag & 0xF` into
the descriptor. -/
def inserted (d : Dev) (vid : ℕ) : BitVec 32 := entry d.vidBase (vid &&& 0xf)

/-- The device, the ids that were added and not removed, and those of them whose addition
was stored in the table. -/
structure State where
  dev : Dev
  added : Fin 4096 → Bool
  stored : Fin 4096 → Bool

inductive Call
  | add (vid : Fin 4096)
  | kill (vid : Fin 4096)
  | feature (on : Bool)

def next (s : State) : Call → State
  | .add vid =>
      { dev := feVlanRxAddVid vid s.dev
        added := Function.update s.added vid true
        stored := Function.update s.stored vid
          (s.stored vid || (s.dev.ctagTx && !s.dev.vlanMap (vid.val &&& 0xf))) }
  | .kill vid =>
      { dev := feVlanRxKillVid vid s.dev
        added := Function.update s.added vid false
        stored := Function.update s.stored vid false }
  | .feature on => { s with dev := { s.dev with ctagTx := on } }

def start (regs : ℕ → BitVec 32) (on : Bool) : State :=
  ⟨⟨feHwInit regs, fun _ => false, on⟩, fun _ => false, fun _ => false⟩

/-- While the feature is on every id in use is inserted for its own tag. -/
def Right (s : State) : Prop :=
  s.dev.ctagTx = true → ∀ vid, s.added vid = true → inserted s.dev vid = BitVec.ofNat 32 vid

/-- An id is not stored over another one in use, and the feature is not turned on for an
id that is neither stored nor in the table by chance. -/
def Good (s : State) : Call → Prop
  | .add vid =>
      s.dev.ctagTx = true → s.dev.vlanMap (vid.val &&& 0xf) = false →
        ∀ u, s.added u = true → u.val &&& 0xf = vid.val &&& 0xf → u = vid
  | .kill _ => True
  | .feature on =>
      on = true → ∀ vid, s.added vid = true → s.stored vid = false →
        inserted s.dev vid = BitVec.ofNat 32 vid

theorem entry_put (regs : ℕ → BitVec 32) (i j : ℕ) {v : BitVec 32} (hv : v.toNat < 2 ^ 16) :
    entry (Function.update regs (i / 2) (put (regs (i / 2)) (16 * (i % 2)) (ones 32 16) v)) j =
      if j = i then v else entry regs j := by
  unfold entry
  by_cases hword : j / 2 = i / 2
  · rw [hword, Function.update_self]
    by_cases hhalf : j % 2 = i % 2
    · have hsame : j = i := by omega
      rw [hhalf, if_pos hsame, field_put_here (by omega), and_ones hv]
    · have hother : j ≠ i := fun h => hhalf (congrArg (· % 2) h)
      rw [if_neg hother, field_put_apart (by omega)]
  · have hother : j ≠ i := fun h => hword (congrArg (· / 2) h)
    rw [Function.update_of_ne hword, if_neg hother]

section

variable {d : Dev} {vid : ℕ}

/-- The entries behind an addition that is stored. -/
theorem entry_add (hvid : vid < 4096) (hon : d.ctagTx = true)
    (hfree : d.vlanMap (vid &&& 0xf) = false) (j : ℕ) :
    entry (feVlanRxAddVid vid d).vidBase j =
      if j = vid &&& 0xf then BitVec.ofNat 32 vid else entry d.vidBase j := by
  have hfits : (BitVec.ofNat 32 vid).toNat < 2 ^ 16 := by
    rw [BitVec.toNat_ofNat]
    omega
  have hkept : BitVec.ofNat 32 vid &&& ones 32 16 = BitVec.ofNat 32 vid := and_ones hfits
  have hword : (vid &&& 0xf) >>> 1 = (vid &&& 0xf) / 2 := Nat.shiftRight_eq_div_pow _ _
  have hhalf : (vid &&& 0xf) &&& 1 = (vid &&& 0xf) % 2 := Nat.and_one_is_mod _
  have hbase : (feVlanRxAddVid vid d).vidBase = Function.update d.vidBase ((vid &&& 0xf) / 2)
      (put (d.vidBase ((vid &&& 0xf) / 2)) (16 * ((vid &&& 0xf) % 2)) (ones 32 16)
        (BitVec.ofNat 32 vid)) := by
    unfold feVlanRxAddVid put
    rw [if_neg (by simp [hon]), if_neg (by simp [hfree])]
    dsimp only
    rw [hword, hhalf, hkept]
    rcases Nat.mod_two_eq_zero_or_one (vid &&& 0xf) with h | h
    · have hmask : ~~~(ones 32 16 <<< (16 * 0)) = 0xffff0000#32 := by decide
      rw [h, if_neg (by decide), hmask, BitVec.shiftLeft_zero]
    · rw [h, if_pos (by decide)]
      rfl
  rw [hbase, entry_put _ _ _ hfits]

theorem add_skipped (hskip : d.ctagTx = false ∨ d.vlanMap (vid &&& 0xf) = true) :
    (feVlanRxAddVid vid d).vidBase = d.vidBase ∧ (feVlanRxAddVid vid d).ctagTx = false := by
  unfold feVlanRxAddVid
  by_cases hoff : d.ctagTx = false
  · rw [if_pos hoff]
    exact ⟨rfl, hoff⟩
  · rw [if_neg hoff, if_pos (hskip.resolve_left hoff)]
    exact ⟨rfl, rfl⟩

theorem add_stored (hon : d.ctagTx = true) (hfree : d.vlanMap (vid &&& 0xf) = false) :
    (feVlanRxAddVid vid d).ctagTx = true := by
  unfold feVlanRxAddVid
  rw [if_neg (by simp [hon]), if_neg (by simp [hfree])]
  exact hon

theorem skipped_of_not (h : ¬(d.ctagTx = true ∧ d.vlanMap (vid &&& 0xf) = false)) :
    d.ctagTx = false ∨ d.vlanMap (vid &&& 0xf) = true := by
  rcases not_and_or.mp h with hoff | htaken
  · exact Or.inl (Bool.eq_false_of_not_eq_true hoff)
  · exact Or.inr (Bool.eq_true_of_not_eq_false htaken)

theorem kill_kept : (feVlanRxKillVid vid d).vidBase = d.vidBase ∧
    (feVlanRxKillVid vid d).ctagTx = d.ctagTx := by
  unfold feVlanRxKillVid
  split
  · exact ⟨rfl, rfl⟩
  · exact ⟨rfl, rfl⟩

end

/-- What holds before every call of a run of good calls. -/
structure Inv (s : State) : Prop where
  added : ∀ vid, s.stored vid = true → s.added vid = true
  stored : ∀ vid, s.stored vid = true → inserted s.dev vid = BitVec.ofNat 32 vid
  right : Right s

theorem inv_start (regs : ℕ → BitVec 32) (on : Bool) : Inv (start regs on) where
  added := fun _ h => h
  stored := fun _ h => absurd h Bool.false_ne_true
  right := fun _ _ h => absurd h Bool.false_ne_true

section

variable {s : State} {vid : Fin 4096}

/-- An id keeps its entry when another one is stored elsewhere. -/
theorem inserted_add (hon : s.dev.ctagTx = true) (hfree : s.dev.vlanMap (vid.val &&& 0xf) = false)
    (u : ℕ) : inserted (feVlanRxAddVid vid s.dev) u =
      if u &&& 0xf = vid.val &&& 0xf then BitVec.ofNat 32 vid else inserted s.dev u :=
  entry_add vid.isLt hon hfree (u &&& 0xf)

theorem inserted_congr {d d' : Dev} (h : d'.vidBase = d.vidBase) (u : ℕ) :
    inserted d' u = inserted d u := by
  rw [inserted, inserted, h]

theorem right_add_iff (h : Inv s) : Right (next s (.add vid)) ↔ Good s (.add vid) := by
  by_cases hstore : s.dev.ctagTx = true ∧ s.dev.vlanMap (vid.val &&& 0xf) = false
  · obtain ⟨hon, hfree⟩ := hstore
    constructor
    · intro hright _ _ u hu hlow
      by_contra hne
      have hadded : (next s (.add vid)).added u = true := by
        show Function.update s.added vid true u = true
        rw [Function.update_of_ne hne]
        exact hu
      have hentry : inserted (feVlanRxAddVid vid s.dev) u = BitVec.ofNat 32 u :=
        hright (add_stored hon hfree) u hadded
      rw [inserted_add hon hfree, if_pos hlow] at hentry
      have hval := congrArg BitVec.toNat hentry
      rw [BitVec.toNat_ofNat, BitVec.toNat_ofNat] at hval
      have hu := u.isLt
      have hvid := vid.isLt
      exact hne (Fin.ext (by omega))
    · intro hgood _ u hu
      show inserted (feVlanRxAddVid vid s.dev) u = _
      rw [inserted_add hon hfree]
      by_cases hne : u = vid
      · rw [hne, if_pos rfl]
      · have hold : s.added u = true := by
          have hnew : Function.update s.added vid true u = true := hu
          rwa [Function.update_of_ne hne] at hnew
        rw [if_neg fun hlow => hne (hgood hon hfree u hold hlow)]
        exact h.right hon u hold
  · have hskip := skipped_of_not hstore
    constructor
    · intro _ hon hfree
      exact absurd ⟨hon, hfree⟩ hstore
    · intro _ hon
      have hoff := (add_skipped hskip).2
      exact absurd (hoff.symm.trans hon) Bool.false_ne_true

theorem right_kill (h : Inv s) : Right (next s (.kill vid)) := by
  intro hon u hu
  have hold : s.added u = true := by
    have hkept : Function.update s.added vid false u = true := hu
    by_cases hne : u = vid
    · rw [hne, Function.update_self] at hkept
      exact absurd hkept Bool.false_ne_true
    · rwa [Function.update_of_ne hne] at hkept
  have hdev : (feVlanRxKillVid vid s.dev).ctagTx = true := hon
  rw [kill_kept.2] at hdev
  show inserted (feVlanRxKillVid vid s.dev) u = _
  rw [inserted_congr kill_kept.1]
  exact h.right hdev u hold

theorem right_feature_iff (h : Inv s) (on : Bool) :
    Right (next s (.feature on)) ↔ Good s (.feature on) := by
  constructor
  · intro hright hon u hu _
    exact hright hon u hu
  · intro hgood hon u hu
    cases hstored : s.stored u with
    | true => exact h.stored u hstored
    | false => exact hgood hon u hu hstored

/-- The calls that leave the table right are the good ones. -/
theorem right_iff (h : Inv s) (c : Call) : Right (next s c) ↔ Good s c := by
  cases c with
  | add vid => exact right_add_iff h
  | kill vid => exact iff_of_true (right_kill h) trivial
  | feature on => exact right_feature_iff h on

theorem inv_add (h : Inv s) (hgood : Good s (.add vid)) : Inv (next s (.add vid)) where
  added := by
    intro u hu
    show Function.update s.added vid true u = true
    by_cases hne : u = vid
    · rw [hne, Function.update_self]
    · have hold : Function.update s.stored vid _ u = true := hu
      rw [Function.update_of_ne hne] at hold ⊢
      exact h.added u hold
  stored := by
    intro u hu
    have hnew : Function.update s.stored vid
      (s.stored vid || (s.dev.ctagTx && !s.dev.vlanMap (vid.val &&& 0xf))) u = true := hu
    show inserted (feVlanRxAddVid vid s.dev) u = _
    by_cases hstore : s.dev.ctagTx = true ∧ s.dev.vlanMap (vid.val &&& 0xf) = false
    · obtain ⟨hon, hfree⟩ := hstore
      rw [inserted_add hon hfree]
      by_cases hne : u = vid
      · rw [hne, if_pos rfl]
      · rw [Function.update_of_ne hne] at hnew
        rw [if_neg fun hlow => hne (hgood hon hfree u (h.added u hnew) hlow)]
        exact h.stored u hnew
    · have hskip := skipped_of_not hstore
      have hsame : (s.dev.ctagTx && !s.dev.vlanMap (vid.val &&& 0xf)) = false := by
        rcases hskip with hoff | htaken
        · rw [hoff, Bool.false_and]
        · rw [htaken, Bool.not_true, Bool.and_false]
      rw [hsame, Bool.or_false, Function.update_eq_self] at hnew
      rw [inserted_congr (add_skipped hskip).1]
      exact h.stored u hnew
  right := (right_add_iff h).mpr hgood

theorem inv_kill (h : Inv s) : Inv (next s (.kill vid)) where
  added := by
    intro u hu
    have hold : Function.update s.stored vid false u = true := hu
    show Function.update s.added vid false u = true
    by_cases hne : u = vid
    · rw [hne, Function.update_self] at hold
      exact absurd hold Bool.false_ne_true
    · rw [Function.update_of_ne hne] at hold ⊢
      exact h.added u hold
  stored := by
    intro u hu
    have hold : Function.update s.stored vid false u = true := hu
    show inserted (feVlanRxKillVid vid s.dev) u = _
    rw [inserted_congr kill_kept.1]
    by_cases hne : u = vid
    · rw [hne, Function.update_self] at hold
      exact absurd hold Bool.false_ne_true
    · rw [Function.update_of_ne hne] at hold
      exact h.stored u hold
  right := right_kill h

theorem inv_next (c : Call) (h : Inv s) (hgood : Good s c) : Inv (next s c) := by
  cases c with
  | add vid => exact inv_add h hgood
  | kill vid => exact inv_kill h
  | feature on => exact ⟨h.added, h.stored, (right_feature_iff h on).mpr hgood⟩

end

/-- The table is right behind every call of a run if all calls are good. -/
theorem vlan_insertion_iff (regs : ℕ → BitVec 32) (on : Bool) (calls : List Call) :
    Every next (fun s c => Right (next s c)) (start regs on) calls ↔
      Every next Good (start regs on) calls :=
  every_iff (fun _ c h hgood => inv_next c h hgood) (fun _ c h => right_iff h c) calls
    (inv_start regs on)

/-- An id that is added while the feature is off is not in the table afterwards. -/
theorem skipped_id_wrong : ¬Every next (fun s c => Right (next s c)) (start (fun _ => 0) true)
    [.feature false, .add 17, .feature true] := by
  rintro ⟨-, -, hright, -⟩
  have hentry := hright rfl 17 (by decide)
  revert hentry
  decide

end Iot7688.RalinkVlan
