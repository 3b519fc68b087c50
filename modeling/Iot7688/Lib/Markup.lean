import Iot7688.Lib.Memory

/-!
Text in markup. The five characters with a meaning there are written as numeric entities,
so that none of them is left but the ampersand in front of an entity. Decoding puts them
back.
-/
namespace Iot7688.Lib.Markup

def ampersand : Byte := 0x26

/-- The quotes, the ampersand and the two brackets. -/
def marks : List Byte := [0x22, ampersand, 0x27, 0x3c, 0x3e]

/-- The entity with the number of a mark, which has two digits. -/
def entity (b : Byte) : List Byte := [ampersand, 0x23, 0x30 + b / 10, 0x30 + b % 10, 0x3b]

/-- No mark but ampersands, and each of them starts an entity. -/
def Safe (s : List Byte) : Prop :=
  (∀ b ∈ s, b ∈ marks → b = ampersand) ∧
  ∀ t, ampersand :: t <:+ s → ∃ b ∈ marks, entity b <+: ampersand :: t

/-- A row of entities and of bytes that are no marks. -/
inductive Escaped : List Byte → Prop
  | nil : Escaped []
  | plain {b : Byte} {s : List Byte} : b ∉ marks → Escaped s → Escaped (b :: s)
  | entity {b : Byte} {s : List Byte} : b ∈ marks → Escaped s → Escaped (entity b ++ s)

/-- Decoding, with the number of bytes that belong to the entity before. -/
def decodeFrom : ℕ → List Byte → List Byte
  | _, [] => []
  | skip + 1, _ :: s => decodeFrom skip s
  | 0, b :: s =>
      match marks.find? fun mark => (entity mark).isPrefixOf (b :: s) with
      | some mark => mark :: decodeFrom 4 s
      | none => b :: decodeFrom 0 s

def decode (s : List Byte) : List Byte := decodeFrom 0 s

variable {b : Byte} {s t : List Byte}

theorem entity_tail (hb : b ∈ marks) : ∀ c ∈ (entity b).tail, c ∉ marks := by
  have hall : ∀ b ∈ marks, ∀ c ∈ (entity b).tail, c ∉ marks := by decide +kernel
  exact hall b hb

theorem safe_nil : Safe [] :=
  ⟨fun _ hb => (by cases hb), fun _ ht => (by cases List.suffix_nil.mp ht)⟩

theorem Safe.plain (hs : Safe s) (hb : b ∉ marks) : Safe (b :: s) := by
  refine ⟨List.forall_mem_cons.mpr ⟨fun h => absurd h hb, hs.1⟩, fun t ht => ?_⟩
  obtain heq | hsuffix := List.suffix_cons_iff.mp ht
  · obtain ⟨rfl, -⟩ := List.cons.inj heq
    exact absurd (by decide) hb
  · exact hs.2 t hsuffix

theorem Safe.entity (hs : Safe s) (hb : b ∈ marks) : Safe (entity b ++ s) := by
  have hplain : ∀ tail : List Byte, (∀ c ∈ tail, c ∉ marks) → Safe (tail ++ s) := by
    intro tail htail
    induction tail with
    | nil => exact hs
    | cons c tail ih =>
      rw [List.forall_mem_cons] at htail
      exact (ih htail.2).plain htail.1
  have hrest := hplain _ (entity_tail hb)
  refine ⟨List.forall_mem_cons.mpr ⟨fun _ => rfl, hrest.1⟩, fun t ht => ?_⟩
  obtain heq | hsuffix := List.suffix_cons_iff.mp ht
  · exact ⟨b, hb, heq ▸ List.prefix_append _ s⟩
  · exact hrest.2 t hsuffix

theorem Escaped.safe (h : Escaped s) : Safe s := by
  induction h with
  | nil => exact safe_nil
  | plain hb _ ih => exact ih.plain hb
  | entity hb _ ih => exact ih.entity hb

theorem Escaped.append (hs : Escaped s) (ht : Escaped t) : Escaped (s ++ t) := by
  induction hs with
  | nil => exact ht
  | plain hb _ ih => exact .plain hb ih
  | entity hb _ ih =>
    rw [List.append_assoc]
    exact .entity hb ih

theorem escaped_of_plain (h : ∀ b ∈ s, b ∉ marks) : Escaped s := by
  induction s with
  | nil => exact .nil
  | cons b s ih =>
    rw [List.forall_mem_cons] at h
    exact .plain h.1 (ih h.2)

theorem escaped_entity (hb : b ∈ marks) : Escaped (entity b) := .entity hb .nil

/-- Cutting at a NUL leaves every entity whole. -/
theorem Escaped.takeWhile (h : Escaped s) : Escaped (s.takeWhile (· ≠ 0)) := by
  induction h with
  | nil => exact .nil
  | @plain b s hb _ ih =>
    by_cases h0 : b = 0
    · simpa [h0] using Escaped.nil
    · simpa [h0] using ih.plain hb
  | @entity b s hb _ ih =>
    have hnone : ∀ b ∈ marks, ∀ c ∈ Markup.entity b, decide (c ≠ 0) = true := by decide +kernel
    rw [List.takeWhile_append_of_pos (hnone b hb)]
    exact ih.entity hb

theorem decode_plain (hb : b ∉ marks) (s : List Byte) : decode (b :: s) = b :: decode s := by
  have hnone : (marks.find? fun mark => (entity mark).isPrefixOf (b :: s)) = none := by
    rw [List.find?_eq_none]
    intro mark _ hprefix
    rw [List.isPrefixOf_iff_prefix] at hprefix
    obtain ⟨rfl, -⟩ := List.cons_prefix_cons.mp hprefix
    exact hb (by decide)
  rw [decode, decodeFrom, hnone]
  rfl

theorem decode_plains {p : List Byte} (hp : ∀ b ∈ p, b ∉ marks) (s : List Byte) :
    decode (p ++ s) = p ++ decode s := by
  induction p with
  | nil => rfl
  | cons b p ih =>
    rw [List.forall_mem_cons] at hp
    rw [List.cons_append, decode_plain hp.1, ih hp.2]
    rfl

theorem decode_entity (hb : b ∈ marks) (s : List Byte) : decode (entity b ++ s) = b :: decode s := by
  simp only [marks, List.mem_cons, List.not_mem_nil, or_false] at hb
  obtain rfl | rfl | rfl | rfl | rfl := hb <;> rfl

end Iot7688.Lib.Markup
