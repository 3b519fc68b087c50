import Mathlib.Data.List.SplitBy

/-!
A list is cut into the fewest chains by cutting it where the relation fails: other pieces that
are chains are more, and as many only when they are the same.
-/
namespace Iot7688.Lib

variable {α : Type*} {r : α → α → Bool} {a b : α} {l p : List α} {ps : List (List α)}

theorem splitBy_joined (hr : r a b = true) :
    ∃ q qs, (b :: l).splitBy r = q :: qs ∧ (a :: b :: l).splitBy r = (a :: q) :: qs := by
  cases hq : (b :: l).splitBy r with
  | nil => exact absurd (List.splitBy_eq_nil.mp hq) (List.cons_ne_nil _ _)
  | cons q qs =>
    refine ⟨q, qs, rfl, ?_⟩
    obtain ⟨hflat, hnil, hchain, hcut⟩ := List.splitBy_eq_iff.mp hq
    rw [List.flatten_cons] at hflat
    rw [List.mem_cons, not_or] at hnil
    obtain ⟨c, q, rfl⟩ := List.exists_cons_of_ne_nil (Ne.symm hnil.1)
    rw [List.cons_append] at hflat
    obtain ⟨rfl, hl⟩ := List.cons.inj hflat
    refine List.splitBy_eq_iff.mpr ⟨?_, ?_, ?_, ?_⟩
    · rw [List.flatten_cons, List.cons_append, List.cons_append, hl]
    · rw [List.mem_cons, not_or]
      exact ⟨(List.cons_ne_nil _ _).symm, hnil.2⟩
    · intro m hm
      rcases List.mem_cons.mp hm with rfl | hm
      · exact List.isChain_cons_cons.mpr ⟨hr, hchain _ List.mem_cons_self⟩
      · exact hchain m (List.mem_cons_of_mem _ hm)
    · rw [List.isChain_cons] at hcut ⊢
      refine ⟨fun m hm => ?_, hcut.2⟩
      obtain ⟨hne, hb, hlast⟩ := hcut.1 m hm
      exact ⟨List.cons_ne_nil _ _, hb, by rwa [List.getLast_cons hne]⟩

/-- Each failure of the relation is a cut. -/
theorem length_splitBy_cons : ((a :: b :: l).splitBy r).length =
    (if r a b then 0 else 1) + ((b :: l).splitBy r).length := by
  by_cases hr : r a b = true
  · obtain ⟨q, qs, hq, hjoined⟩ := splitBy_joined (l := l) hr
    rw [if_pos hr, hq, hjoined, Nat.zero_add]
    rfl
  · have hcut := List.splitBy_append_cons (r := r) (l := [a]) (a := b) l (by simpa using hr)
    rw [List.singleton_append] at hcut
    rw [if_neg hr, hcut, List.length_append]
    rfl

theorem length_splitBy_append (hp : p.IsChain fun x y => r x y) (hne : p ≠ []) :
    ((p ++ b :: l).splitBy r).length =
      (if r (p.getLast hne) b then 0 else 1) + ((b :: l).splitBy r).length := by
  induction p with
  | nil => exact absurd rfl hne
  | cons a p ih =>
    cases p with
    | nil => exact length_splitBy_cons
    | cons c p =>
      rw [List.isChain_cons_cons] at hp
      rw [List.getLast_cons (List.cons_ne_nil _ _), List.cons_append, List.cons_append,
        length_splitBy_cons, if_pos hp.1, Nat.zero_add]
      exact ih hp.2 (List.cons_ne_nil _ _)

section

variable (hnil : [] ∉ ps) (hchain : ∀ p ∈ ps, p.IsChain fun x y => r x y)

include hnil hchain

theorem length_splitBy_le : (ps.flatten.splitBy r).length ≤ ps.length := by
  induction ps with
  | nil => exact le_rfl
  | cons p ps ih =>
    rw [List.mem_cons, not_or] at hnil
    have hrest := ih hnil.2 fun q hq => hchain q (List.mem_cons_of_mem _ hq)
    have hp := hchain p List.mem_cons_self
    rw [List.flatten_cons, List.length_cons]
    cases hflat : ps.flatten with
    | nil =>
      rw [List.append_nil, List.splitBy_of_isChain (Ne.symm hnil.1) hp]
      exact Nat.le_add_left _ _
    | cons b l =>
      rw [hflat] at hrest
      rw [length_splitBy_append hp (Ne.symm hnil.1)]
      split <;> omega

theorem splitBy_eq_of_length (hlen : ps.length ≤ (ps.flatten.splitBy r).length) :
    ps.flatten.splitBy r = ps := by
  induction ps with
  | nil => rfl
  | cons p ps ih =>
    rw [List.mem_cons, not_or] at hnil
    have hchain' : ∀ q ∈ ps, q.IsChain fun x y => r x y := fun q hq =>
      hchain q (List.mem_cons_of_mem _ hq)
    have hp := hchain p List.mem_cons_self
    have hle := length_splitBy_le hnil.2 hchain'
    rw [List.flatten_cons, List.length_cons] at hlen
    rw [List.flatten_cons]
    cases hflat : ps.flatten with
    | nil =>
      have hps : ps = [] := by
        refine List.eq_nil_iff_forall_not_mem.mpr fun q hq => hnil.2 ?_
        rwa [← List.flatten_eq_nil_iff.mp hflat q hq]
      rw [List.append_nil, List.splitBy_of_isChain (Ne.symm hnil.1) hp, hps]
    | cons b l =>
      rw [hflat] at hlen hle ih
      rw [length_splitBy_append hp (Ne.symm hnil.1)] at hlen
      have hcut : r (p.getLast (Ne.symm hnil.1)) b ≠ true := by
        intro hr
        rw [if_pos hr] at hlen
        omega
      rw [if_neg hcut] at hlen
      have hsplit := List.splitBy_append_cons (r := r) (l := p) (a := b) l fun x hx => by
        rw [← List.getLast_of_mem_getLast? hx]
        simpa using hcut
      rw [hsplit, List.splitBy_of_isChain (Ne.symm hnil.1) hp, ih hnil.2 hchain' (by omega)]
      rfl

end

end Iot7688.Lib
