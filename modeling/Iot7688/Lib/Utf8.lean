import Iot7688.Lib.Memory

/-!
Well-formed UTF-8: a row of characters of one to four bytes, in which a first byte says
how many continuation bytes there are, overlong forms, surrogates and everything above
U+10FFFF left out. A row of characters can be split in one way only.
-/
namespace Iot7688.Lib.Utf8

/-- A continuation byte. -/
def Tail (b : Byte) : Prop := 0x80 ≤ b ∧ b ≤ 0xbf

instance (b : Byte) : Decidable (Tail b) := inferInstanceAs (Decidable (_ ∧ _))

inductive Character : List Byte → Prop
  | one {a : Byte} : a < 0x80 → Character [a]
  | two {a b : Byte} : 0xc2 ≤ a → a ≤ 0xdf → Tail b → Character [a, b]
  | three {a b c : Byte} : 0xe0 ≤ a → a ≤ 0xef → Tail b → (a = 0xe0 → 0xa0 ≤ b) →
      (a = 0xed → b ≤ 0x9f) → Tail c → Character [a, b, c]
  | four {a b c d : Byte} : 0xf0 ≤ a → a ≤ 0xf4 → Tail b → (a = 0xf0 → 0x90 ≤ b) →
      (a = 0xf4 → b ≤ 0x8f) → Tail c → Tail d → Character [a, b, c, d]

inductive WellFormed : List Byte → Prop
  | nil : WellFormed []
  | cons {char s : List Byte} : Character char → WellFormed s → WellFormed (char ++ s)

/-- The number of bytes that a first byte announces. -/
def charLength (b : Byte) : ℕ := if b < 0x80 then 1 else if b < 0xe0 then 2 else if b < 0xf0 then 3 else 4

/-- The text does not go on with a continuation byte. -/
def Fresh (s : List Byte) : Prop := ∀ b ∈ s.head?, ¬Tail b

variable {b : Byte} {s t char : List Byte}

theorem Character.ne_nil (h : Character char) : char ≠ [] := by
  cases h <;> exact List.cons_ne_nil _ _

theorem Character.length (h : Character (b :: s)) : s.length + 1 = charLength b := by
  unfold charLength
  cases h <;> grind

theorem character_one_iff {a : Byte} : Character [a] ↔ a < 0x80 :=
  ⟨fun h => by cases h with | one ha => exact ha, .one⟩

theorem character_two_iff {a b : Byte} : Character [a, b] ↔ 0xc2 ≤ a ∧ a ≤ 0xdf ∧ Tail b :=
  ⟨fun h => by cases h with | two hlow hhigh hb => exact ⟨hlow, hhigh, hb⟩,
    fun h => .two h.1 h.2.1 h.2.2⟩

theorem character_three_iff {a b c : Byte} : Character [a, b, c] ↔ (0xe0 ≤ a ∧ a ≤ 0xef) ∧
    (a = 0xe0 → 0xa0 ≤ b) ∧ (a = 0xed → b ≤ 0x9f) ∧ Tail b ∧ Tail c :=
  ⟨fun h => by
      cases h with
      | three hlow hhigh hb hshort hsurrogate hc =>
        exact ⟨⟨hlow, hhigh⟩, hshort, hsurrogate, hb, hc⟩,
    fun h => .three h.1.1 h.1.2 h.2.2.2.1 h.2.1 h.2.2.1 h.2.2.2.2⟩

theorem character_four_iff {a b c d : Byte} : Character [a, b, c, d] ↔ (0xf0 ≤ a ∧ a ≤ 0xf4) ∧
    (a = 0xf0 → 0x90 ≤ b) ∧ (a = 0xf4 → b ≤ 0x8f) ∧ Tail b ∧ Tail c ∧ Tail d :=
  ⟨fun h => by
      cases h with
      | four hlow hhigh hb hshort hlarge hc hd =>
        exact ⟨⟨hlow, hhigh⟩, hshort, hlarge, hb, hc, hd⟩,
    fun h => .four h.1.1 h.1.2 h.2.2.2.1 h.2.1 h.2.2.1 h.2.2.2.2.1 h.2.2.2.2.2⟩

theorem Character.lead (h : Character (b :: s)) : ¬Tail b := by
  unfold Tail
  cases h <;> grind

theorem Character.tails (h : Character (b :: s)) : ∀ c ∈ s, Tail c := by
  cases h <;> simp_all

theorem WellFormed.fresh (h : WellFormed s) : Fresh s := by
  cases h with
  | nil => exact fun _ hb => by cases hb
  | cons hchar _ =>
    intro b hb
    obtain ⟨c, rest, rfl⟩ := List.exists_cons_of_ne_nil hchar.ne_nil
    cases hb
    exact hchar.lead

/-- The first character is as long as its first byte says. -/
theorem WellFormed.of_append (h : WellFormed (b :: s ++ t)) (hlen : s.length + 1 = charLength b) :
    Character (b :: s) ∧ WellFormed t := by
  generalize hwhole : b :: s ++ t = whole at h
  cases h with
  | nil => cases hwhole
  | @cons char rest hchar hrest =>
    obtain ⟨c, tail, rfl⟩ := List.exists_cons_of_ne_nil hchar.ne_nil
    obtain ⟨rfl, hrest'⟩ := List.cons.inj hwhole
    have hsame : s.length = tail.length := by
      have htail := hchar.length
      omega
    obtain ⟨rfl, rfl⟩ := List.append_inj hrest' hsame
    exact ⟨hchar, hrest⟩

/-- Where the continuation bytes end is the same in every split. -/
theorem tails_unique {conts conts' : List Byte} (heq : conts ++ s = conts' ++ t)
    (htails : ∀ c ∈ conts, Tail c) (htails' : ∀ c ∈ conts', Tail c) (hs : Fresh s)
    (ht : conts'.length ≤ conts.length → Fresh t) : conts = conts' ∧ s = t := by
  induction conts generalizing conts' with
  | nil =>
    cases conts' with
    | nil => exact ⟨rfl, heq⟩
    | cons c conts' =>
      rw [List.nil_append] at heq
      exact absurd (htails' c List.mem_cons_self) (hs c (by rw [heq]; rfl))
  | cons c conts ih =>
    rw [List.forall_mem_cons] at htails
    cases conts' with
    | nil =>
      rw [List.nil_append] at heq
      exact absurd htails.1 (ht (Nat.zero_le _) c (by rw [← heq]; rfl))
    | cons d conts' =>
      rw [List.forall_mem_cons] at htails'
      obtain ⟨rfl, hrest⟩ := List.cons.inj heq
      obtain ⟨rfl, rfl⟩ := ih hrest htails.2 htails'.2 fun h => ht (Nat.succ_le_succ h)
      exact ⟨rfl, rfl⟩

end Iot7688.Lib.Utf8
