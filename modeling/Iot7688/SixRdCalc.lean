import Iot7688.Lib.Digits
import Iot7688.Lib.Inet
import Iot7688.Lib.Strtoul

/-!
6rdcalc: the prefix of a 6rd customer from the prefix of the provider and an IPv4
address. The arguments are cut to two buffers on the stack, and a read behind the end of
one of them ends the run. Both arguments come without their NUL.
-/
namespace Iot7688.SixRdCalc

open Lib

abbrev Str := List Byte

/-- INET_ADDRSTRLEN + 3 and INET6_ADDRSTRLEN + 4. -/
def inetPrefixstrlen : ℕ := 16 + 3
def inet6Prefixstrlen : ℕ := 46 + 4

/-- The ends of a run without a prefix. -/
inductive Stop
  | usage
  | outside
deriving DecidableEq

def strncpy (n : ℕ) (s : Str) : Str := s.take n ++ List.replicate (n - s.length) 0

/-- strchr for a slash in a buffer: what is in front of it and behind it, or no slash, or
none for a read behind the end of the buffer. -/
def strchr : Str → Option (Option (Str × Str))
  | [] => none
  | b :: buf =>
      if b = slash then some (some ([], buf))
      else if b = 0 then some none
      else (strchr buf).map (Option.map fun r => (b :: r.1, r.2))

/-- strtoul at the end of a buffer. -/
def strtoulAt (buf : Str) : Option ℕ := if scanEnd buf = [] then none else some (strtoul 10 buf).1

/-- parse_str; pton is inet_pton for the address family, limit its largest mask. -/
def parseStr (pton : Str → Option Mem) (limit : ℕ) (str : Str) : Except Stop (Mem × ℕ) :=
  match strchr str with
  | none => .error .outside
  | some none => .error .usage
  | some (some (text, rest)) =>
      match pton text with
      | none => .error .usage
      | some addr =>
          match strtoulAt rest with
          | none => .error .outside
          | some mask => if limit < mask then .error .usage else .ok (addr, mask)

def bitMask (it : ℕ) : Byte := (128 >>> (it &&& 7) : ℕ).toUInt8

/-- Sets or clears one bit of an address. -/
def putBit (m : Mem) (it : ℕ) (on : Bool) : Mem :=
  let byte := it >>> 3
  Function.update m byte (if on then m byte ||| bitMask it else m byte &&& ~~~bitMask it)

/-- The loop that combines the addresses. -/
def combine (v6 v4 : Mem) (v6it v4it : ℕ) : Option (Mem × ℕ) :=
  if v4it < 32 then
    if 16 ≤ v6it >>> 3 ∨ 4 ≤ v4it >>> 3 then none
    else
      combine (putBit v6 v6it (v4 (v4it >>> 3) &&& bitMask v4it ≠ 0)) v4 (v6it + 1) (v4it + 1)
  else some (v6, v6it)
termination_by 32 - v4it

/-- The loop that clears the remaining bits. -/
def clear (v6 : Mem) (v6it : ℕ) : Option Mem :=
  if v6it < 128 then
    if 16 ≤ v6it >>> 3 then none else clear (putBit v6 v6it false) (v6it + 1)
  else some v6
termination_by 128 - v6it

/-- main with two arguments: the address that is printed, and its mask. -/
def sixRdCalc (inet : Inet) (argv1 argv2 : Str) : Except Stop (Mem × ℕ) :=
  let v6str := (strncpy inet6Prefixstrlen argv1).set (inet6Prefixstrlen - 1) 0
  match parseStr inet.pton6 128 v6str with
  | .error e => .error e
  | .ok (v6, v6it) =>
      let v4str := strncpy inetPrefixstrlen argv2
      -- the terminator for this buffer is written to v6str, which is not read any more
      match parseStr inet.pton4 32 v4str with
      | .error e => .error e
      | .ok (v4, v4it) =>
          let mask := 32 - v4it + v6it
          if 128 < mask then .error .usage
          else
            match combine v6 v4 v6it v4it with
            | none => .error .outside
            | some (v6, v6it) =>
                match clear v6 v6it with
                | none => .error .outside
                | some v6 => .ok (v6, mask)

section

variable {inet : Inet} {pton : Str → Option Mem} {limit : ℕ} {m v4 v6 : Mem} {i it v4it v6it : ℕ}

theorem byte_eq (i : ℕ) : i >>> 3 = i / 8 := Nat.shiftRight_eq_div_pow i 3

theorem testBit_bitMask (it : ℕ) {t : ℕ} (ht : t < 8) :
    (bitMask it).toNat.testBit t = decide (t = 7 - it % 8) ∧
      (~~~bitMask it).toNat.testBit t = !decide (t = 7 - it % 8) := by
  have hall : ∀ r < 8, ∀ t < 8, ((128 >>> r : ℕ).toUInt8).toNat.testBit t = decide (t = 7 - r) ∧
      (~~~(128 >>> r : ℕ).toUInt8).toNat.testBit t = !decide (t = 7 - r) := by decide +kernel
  have hrest : it &&& 7 = it % 8 := Nat.and_two_pow_sub_one_eq_mod it 3
  rw [bitMask, hrest]
  exact hall _ (Nat.mod_lt it (by decide)) t ht

/-- The test of the loop is for the bit under the cursor. -/
theorem bit_eq_and (m : Mem) (i : ℕ) : decide (m (i >>> 3) &&& bitMask i ≠ 0) = bit m i := by
  have hplace : 7 - i % 8 < 8 := by omega
  rw [byte_eq, bit]
  cases hbit : (m (i / 8)).toNat.testBit (7 - i % 8) with
  | true =>
    refine decide_eq_true fun hzero => ?_
    have h := congrArg (fun b : Byte => b.toNat.testBit (7 - i % 8)) hzero
    simp [(testBit_bitMask i hplace).1, hbit] at h
  | false =>
    refine decide_eq_false (not_not.mpr ?_)
    apply UInt8.toNat_inj.mp
    apply Nat.eq_of_testBit_eq
    intro t
    rw [UInt8.toNat_and, Nat.testBit_and, UInt8.toNat_zero, Nat.zero_testBit]
    by_cases ht : t < 8
    · rw [(testBit_bitMask i ht).1]
      by_cases h : t = 7 - i % 8
      · rw [h, hbit, Bool.false_and]
      · rw [decide_eq_false h, Bool.and_false]
    · have hlarge : (m (i / 8)).toNat < 2 ^ t :=
        (m (i / 8)).toNat_lt.trans_le (Nat.pow_le_pow_right (by decide) (by omega))
      rw [Nat.testBit_lt_two_pow hlarge, Bool.false_and]

/-- Exactly the bit under the cursor is written. -/
theorem bit_putBit (m : Mem) (it : ℕ) (on : Bool) (i : ℕ) :
    bit (putBit m it on) i = if i = it then on else bit m i := by
  have hplace : 7 - i % 8 < 8 := by omega
  obtain ⟨hset, hclear⟩ := testBit_bitMask it hplace
  unfold putBit
  rw [byte_eq]
  dsimp only
  by_cases hbyte : i / 8 = it / 8
  · have hsame : decide (7 - i % 8 = 7 - it % 8) = decide (i = it) :=
      decide_eq_decide.mpr (by omega)
    rw [bit, ← hbyte, Function.update_self]
    cases on with
    | true =>
      rw [if_pos rfl, UInt8.toNat_or, Nat.testBit_or, hset, hsame]
      by_cases h : i = it
      · simp [h]
      · simp [h, bit]
    | false =>
      rw [if_neg Bool.false_ne_true, UInt8.toNat_and, Nat.testBit_and, hclear, hsame]
      by_cases h : i = it
      · simp [h]
      · simp [h, bit]
  · have hne : i ≠ it := fun h => hbyte (by rw [h])
    rw [if_neg hne]
    exact bit_congr (Function.update_of_ne hbyte _ _)

/-- The first loop stays inside of both addresses and copies the bits in order. -/
theorem combine_spec (v6 v4 : Mem) (hv4 : v4it ≤ 32) (hv6 : v6it + (32 - v4it) ≤ 128) :
    ∃ m, combine v6 v4 v6it v4it = some (m, v6it + (32 - v4it)) ∧
      ∀ i, bit m i = if v6it ≤ i ∧ i < v6it + (32 - v4it) then bit v4 (v4it + (i - v6it))
        else bit v6 i := by
  induction hn : 32 - v4it generalizing v6 v6it v4it with
  | zero =>
    rw [combine, if_neg (by omega)]
    exact ⟨v6, rfl, fun i => by rw [if_neg (by omega)]⟩
  | succ n ih =>
    rw [combine, if_pos (by omega), byte_eq, byte_eq, if_neg (by omega), ← byte_eq v4it, bit_eq_and]
    obtain ⟨m, hm, hbits⟩ := @ih (v4it + 1) (v6it + 1) (putBit v6 v6it (bit v4 v4it))
      (by omega) (by omega) (by omega)
    have hend : v6it + 1 + n = v6it + (n + 1) := by omega
    rw [hend] at hm hbits
    refine ⟨m, hm, fun i => ?_⟩
    rw [hbits i, bit_putBit]
    by_cases hi : i = v6it
    · subst hi
      rw [if_neg (by omega), if_pos rfl, if_pos (by omega), Nat.sub_self, Nat.add_zero]
    · by_cases hin : v6it ≤ i ∧ i < v6it + (n + 1)
      · have hplace : v4it + 1 + (i - (v6it + 1)) = v4it + (i - v6it) := by omega
        rw [if_pos (by omega), if_pos hin, hplace]
      · rw [if_neg (by omega), if_neg hi, if_neg hin]

theorem clear_spec (v6 : Mem) (hv6 : v6it ≤ 128) : ∃ m, clear v6 v6it = some m ∧
    ∀ i, bit m i = if v6it ≤ i ∧ i < 128 then false else bit v6 i := by
  induction hn : 128 - v6it generalizing v6 v6it with
  | zero =>
    rw [clear, if_neg (by omega)]
    exact ⟨v6, rfl, fun i => by rw [if_neg (by omega)]⟩
  | succ n ih =>
    rw [clear, if_pos (by omega), byte_eq, if_neg (by omega)]
    obtain ⟨m, hm, hbits⟩ := @ih (v6it + 1) (putBit v6 v6it false) (by omega) (by omega)
    refine ⟨m, hm, fun i => ?_⟩
    rw [hbits i, bit_putBit]
    by_cases hi : i = v6it
    · subst hi
      rw [if_neg (by omega), if_pos rfl, if_pos (by omega)]
    · by_cases hin : v6it ≤ i ∧ i < 128
      · rw [if_pos (by omega), if_pos hin]
      · rw [if_neg (by omega), if_neg hi, if_neg hin]

theorem splitSlash_cons (b : Byte) (s : Str) : splitSlash (b :: s) =
    if b = slash then ([], some s) else (b :: (splitSlash s).1, (splitSlash s).2) := by
  unfold splitSlash
  by_cases hb : b = slash
  · simp [hb]
  · simp [hb]

theorem splitSlash_append {s text rest : Str} (h : splitSlash s = (text, some rest)) (t : Str) :
    splitSlash (s ++ t) = (text, some (rest ++ t)) := by
  induction s generalizing text with
  | nil => cases h
  | cons b s ih =>
    rw [List.cons_append, splitSlash_cons]
    rw [splitSlash_cons] at h
    by_cases hb : b = slash
    · rw [if_pos hb] at h ⊢
      cases h
      rfl
    · rw [if_neg hb] at h ⊢
      obtain ⟨rfl, hrest⟩ := Prod.mk.inj h
      rw [ih (Prod.ext rfl hrest)]

theorem strchr_terminated {s : Str} (hs : 0 ∉ s) (t : Str) : strchr (s ++ 0 :: t) =
    some ((splitSlash s).2.map fun rest => ((splitSlash s).1, rest ++ 0 :: t)) := by
  induction s with
  | nil => rfl
  | cons b s ih =>
    have hb : b ≠ 0 := fun h => hs (h ▸ List.mem_cons_self)
    have ih := ih fun h => hs (List.mem_cons_of_mem b h)
    rw [List.cons_append, strchr, splitSlash_cons]
    by_cases hslash : b = slash
    · rw [if_pos hslash, if_pos hslash]
      rfl
    · rw [if_neg hslash, if_neg hslash, if_neg hb, ih]
      cases (splitSlash s).2 <;> rfl

theorem strchr_cut {s : Str} (hs : 0 ∉ s) : strchr s =
    (splitSlash s).2.map fun rest => some ((splitSlash s).1, rest) := by
  induction s with
  | nil => rfl
  | cons b s ih =>
    have hb : b ≠ 0 := fun h => hs (h ▸ List.mem_cons_self)
    have ih := ih fun h => hs (List.mem_cons_of_mem b h)
    rw [strchr, splitSlash_cons]
    by_cases hslash : b = slash
    · rw [if_pos hslash, if_pos hslash]
      rfl
    · rw [if_neg hslash, if_neg hslash, if_neg hb, ih]
      cases (splitSlash s).2 <;> rfl

variable (pton limit)

/-- What an argument says: an address and a mask that is not too large. -/
def argument (s : Str) : Option (Mem × ℕ) :=
  match (splitSlash s).2 with
  | none => none
  | some rest =>
      match pton (splitSlash s).1 with
      | none => none
      | some addr => if limit < (strtoul 10 rest).1 then none else some (addr, (strtoul 10 rest).1)

/-- The text is read to an end before byte n of it. -/
def EndsBefore (n : ℕ) (s : Str) : Prop :=
  s.length < n ∨ ∃ rest, (splitSlash (s.take n)).2 = some rest ∧
    (pton (splitSlash (s.take n)).1 = none ∨ scanEnd rest ≠ [])

/-- A result of parse_str for the text of an argument. -/
def parsed (s : Str) : Except Stop (Mem × ℕ) :=
  match argument pton limit s with
  | none => .error .usage
  | some r => .ok r

variable {pton limit}

theorem parseStr_terminated {s : Str} (hs : 0 ∉ s) (t : Str) :
    parseStr pton limit (s ++ 0 :: t) = parsed pton limit s := by
  rw [parseStr, parsed, argument, strchr_terminated hs]
  cases (splitSlash s).2 with
  | none => rfl
  | some rest =>
    obtain ⟨hend, hvalue⟩ := scanEnd_nul rest t
    dsimp only [Option.map_some]
    cases pton (splitSlash s).1 with
    | none => rfl
    | some addr =>
      rw [strtoulAt, if_neg hend, hvalue]
      dsimp only
      split <;> rfl

theorem strncpy_short {n : ℕ} {s : Str} (h : s.length < n) :
    ∃ t, strncpy n s = s ++ 0 :: t := by
  refine ⟨List.replicate (n - s.length - 1) 0, ?_⟩
  rw [strncpy, List.take_of_length_le h.le, ← List.replicate_succ]
  congr 2
  omega

theorem strncpy_long {n : ℕ} {s : Str} (h : n ≤ s.length) : strncpy n s = s.take n := by
  rw [strncpy, Nat.sub_eq_zero_of_le h, List.replicate_zero, List.append_nil]

/-- A buffer without a terminator is left when the text does not end in it. -/
theorem parseStr_strncpy (pton : Str → Option Mem) (limit n : ℕ) {s : Str} (hs : 0 ∉ s) :
    (EndsBefore pton n s → parseStr pton limit (strncpy n s) = parsed pton limit s) ∧
      (¬EndsBefore pton n s → parseStr pton limit (strncpy n s) = .error .outside) := by
  by_cases hlen : s.length < n
  · obtain ⟨t, ht⟩ := strncpy_short hlen
    refine ⟨fun _ => ?_, fun h => (h (.inl hlen)).elim⟩
    rw [ht]
    exact parseStr_terminated hs t
  · have hcut : 0 ∉ s.take n := fun h => hs (List.mem_of_mem_take h)
    rw [strncpy_long (by omega), parseStr, strchr_cut hcut]
    cases hrest : (splitSlash (s.take n)).2 with
    | none =>
      refine ⟨fun h => ?_, fun _ => rfl⟩
      obtain hlen' | ⟨rest, hsome, -⟩ := h
      · exact absurd hlen' hlen
      · exact absurd (hrest.symm.trans hsome) (by simp)
    | some rest =>
      have hwhole := splitSlash_append (Prod.ext rfl hrest) (s.drop n)
      rw [List.take_append_drop] at hwhole
      rw [parsed, argument, hwhole]
      dsimp only [Option.map_some]
      cases hpton : pton (splitSlash (s.take n)).1 with
      | none => exact ⟨fun _ => rfl, fun h => (h (.inr ⟨rest, hrest, .inl hpton⟩)).elim⟩
      | some addr =>
        dsimp only
        by_cases hend : scanEnd rest = []
        · rw [strtoulAt, if_pos hend]
          refine ⟨fun h => ?_, fun _ => rfl⟩
          obtain hlen' | ⟨rest', hrest', hnone | hend'⟩ := h
          · exact absurd hlen' hlen
          · exact absurd (hpton.symm.trans hnone) (by simp)
          · obtain rfl := Option.some.inj (hrest.symm.trans hrest')
            exact absurd hend hend'
        · rw [strtoulAt, if_neg hend, (scanEnd_append hend _).2]
          refine ⟨fun _ => ?_, fun h => (h (.inr ⟨rest, hrest, .inr hend⟩)).elim⟩
          dsimp only
          split <;> rfl

/-- A terminator in the last byte cuts the text there. -/
theorem strncpy_set (n : ℕ) (hn : 0 < n) (s : Str) :
    ∃ t, (strncpy n s).set (n - 1) 0 = s.take (n - 1) ++ 0 :: t := by
  by_cases hlen : s.length < n
  · obtain ⟨k, hk⟩ : ∃ k, n - s.length = k + 1 := ⟨n - s.length - 1, by omega⟩
    refine ⟨List.replicate k 0, ?_⟩
    rw [strncpy, List.take_of_length_le hlen.le, List.take_of_length_le (by omega), hk,
      List.replicate_succ, List.set_append_right _ _ (by omega)]
    congr 1
    apply List.ext_getElem
    · simp
    · intro i h1 h2
      simp [← List.replicate_succ]
  · obtain ⟨k, rfl⟩ : ∃ k, n = k + 1 := ⟨n - 1, by omega⟩
    have hk : k < s.length := by omega
    refine ⟨[], ?_⟩
    rw [strncpy_long (by omega), Nat.add_sub_cancel, List.take_add_one,
      List.getElem?_eq_getElem hk, Option.toList_some, List.set_append_right _ _ (by simp),
      List.length_take, Nat.min_eq_left hk.le, Nat.sub_self]
    rfl

/-- The bits of a 6rd prefix: the mask of the provider's prefix, what the IPv4 mask leaves
of the IPv4 address, and zeros. -/
structure IsPrefix (v6 : Mem) (v6mask : ℕ) (v4 : Mem) (v4mask : ℕ) (m : Mem) (mask : ℕ) : Prop where
  mask_eq : mask = v6mask + (32 - v4mask)
  provider : ∀ i, i < v6mask → bit m i = bit v6 i
  customer : ∀ i, i < 32 - v4mask → bit m (v6mask + i) = bit v4 (v4mask + i)
  rest : ∀ i, mask ≤ i → i < 128 → bit m i = false

/-- The run ends with the usage error or with the prefix that the arguments ask for. -/
def Calculates (inet : Inet) (argv1 argv2 : Str) : Prop :=
  match sixRdCalc inet argv1 argv2 with
  | .error .usage => True
  | .error .outside => False
  | .ok (m, mask) => ∃ v6 v6mask v4 v4mask,
      argument inet.pton6 128 argv1 = some (v6, v6mask) ∧
        argument inet.pton4 32 argv2 = some (v4, v4mask) ∧ IsPrefix v6 v6mask v4 v4mask m mask

/-- Where the IPv6 argument is accepted, the IPv4 argument is read to an end in its buffer,
and a prefix is printed only when the cut has not changed the IPv6 argument. -/
def FitsBuffers (inet : Inet) (argv1 argv2 : Str) : Prop :=
  ∀ r, argument inet.pton6 128 (argv1.take (inet6Prefixstrlen - 1)) = some r →
    EndsBefore inet.pton4 inetPrefixstrlen argv2 ∧
      ∀ r', argument inet.pton4 32 argv2 = some r' → r.2 + (32 - r'.2) ≤ 128 →
        argument inet.pton6 128 argv1 = some r

theorem argument_mask {s : Str} {addr : Mem} {mask : ℕ}
    (h : argument pton limit s = some (addr, mask)) : mask ≤ limit := by
  unfold argument at h
  split at h
  · cases h
  · split at h
    · cases h
    · split at h
      · cases h
      next hle =>
        obtain ⟨rfl, rfl⟩ := Prod.mk.inj (Option.some.inj h)
        exact not_lt.mp hle

/-- The two loops make the prefix. -/
theorem loops_spec (v6 v4 : Mem) {v6mask v4mask : ℕ} (hv4 : v4mask ≤ 32) (hsum : v6mask + (32 - v4mask) ≤ 128) :
    ∃ m m', combine v6 v4 v6mask v4mask = some (m, v6mask + (32 - v4mask)) ∧
      clear m (v6mask + (32 - v4mask)) = some m' ∧
      IsPrefix v6 v6mask v4 v4mask m' (v6mask + (32 - v4mask)) := by
  obtain ⟨m, hm, hbits⟩ := combine_spec v6 v4 hv4 hsum
  obtain ⟨m', hm', hbits'⟩ := clear_spec m hsum
  refine ⟨m, m', hm, hm', rfl, fun i hi => ?_, fun i hi => ?_, fun i hle hlt => ?_⟩
  · rw [hbits', if_neg (by omega), hbits, if_neg (by omega)]
  · rw [hbits', if_neg (by omega), hbits, if_pos (by omega), Nat.add_sub_cancel_left]
  · rw [hbits', if_pos ⟨hle, hlt⟩]

/-- More text behind an argument with a slash does not change its address. -/
theorem argument_append {s t : Str} {addr addr' : Mem} {mask mask' : ℕ}
    (h : argument pton limit s = some (addr, mask))
    (h' : argument pton limit (s ++ t) = some (addr', mask')) : addr' = addr := by
  unfold argument at h h'
  cases hrest : (splitSlash s).2 with
  | none =>
    rw [hrest] at h
    cases h
  | some rest =>
    rw [hrest] at h
    rw [splitSlash_append (Prod.ext rfl hrest)] at h'
    dsimp only at h h'
    cases hpton : pton (splitSlash s).1 with
    | none =>
      rw [hpton] at h
      cases h
    | some a =>
      rw [hpton] at h h'
      dsimp only at h h'
      split at h
      · cases h
      · split at h'
        · cases h'
        · obtain ⟨rfl, -⟩ := Prod.mk.inj (Option.some.inj h)
          obtain ⟨rfl, -⟩ := Prod.mk.inj (Option.some.inj h')
          rfl

end

/-- The arguments are turned into the prefix they ask for exactly when the buffers do not
change what they say. -/
theorem calculates_iff (inet : Inet) {argv1 argv2 : Str} (h1 : 0 ∉ argv1) (h2 : 0 ∉ argv2) :
    Calculates inet argv1 argv2 ↔ FitsBuffers inet argv1 argv2 := by
  have hcut : 0 ∉ argv1.take (inet6Prefixstrlen - 1) := fun h => h1 (List.mem_of_mem_take h)
  obtain ⟨t, ht⟩ := strncpy_set inet6Prefixstrlen (by decide) argv1
  obtain ⟨hinside, houtside⟩ := parseStr_strncpy inet.pton4 32 inetPrefixstrlen h2
  unfold Calculates FitsBuffers sixRdCalc
  dsimp only
  rw [ht, parseStr_terminated hcut, parsed]
  cases hv6 : argument inet.pton6 128 (argv1.take (inet6Prefixstrlen - 1)) with
  | none => exact iff_of_true trivial fun r hr => by cases hr
  | some r =>
    obtain ⟨v6, v6mask⟩ := r
    by_cases hends : EndsBefore inet.pton4 inetPrefixstrlen argv2
    · dsimp only
      rw [hinside hends, parsed]
      cases hv4 : argument inet.pton4 32 argv2 with
      | none =>
        refine iff_of_true trivial fun r hr => ⟨hends, fun r' hr' => by cases hr'⟩
      | some r' =>
        obtain ⟨v4, v4mask⟩ := r'
        have hle := argument_mask hv4
        dsimp only
        by_cases hsum : 128 < 32 - v4mask + v6mask
        · rw [if_pos hsum]
          refine iff_of_true trivial fun r hr => ⟨hends, fun r' hr' hfit => ?_⟩
          cases hr
          cases hr'
          exact absurd hfit (by dsimp only; omega)
        · obtain ⟨m, m', hm, hm', hprefix⟩ := loops_spec v6 v4 hle (show v6mask + (32 - v4mask) ≤ 128 by omega)
          rw [if_neg hsum, hm]
          dsimp only
          rw [hm', Nat.add_comm (32 - v4mask)]
          constructor
          · rintro ⟨v6', v6mask', v4', v4mask', hv6', hv4', hprefix'⟩ r hr
            cases hr
            obtain ⟨rfl, rfl⟩ := Prod.mk.inj (Option.some.inj hv4')
            refine ⟨hends, fun _ _ _ => ?_⟩
            have hmask : v6mask' = v6mask := by
              have := hprefix'.mask_eq
              omega
            have hwhole := hv6'
            rw [← List.take_append_drop (inet6Prefixstrlen - 1) argv1] at hwhole
            rw [hv6', argument_append hv6 hwhole, hmask]
          · intro h
            obtain ⟨-, hsame⟩ := h _ rfl
            exact ⟨v6, v6mask, v4, v4mask, hsame _ rfl (by dsimp only; omega), rfl, hprefix⟩
    · dsimp only
      rw [houtside hends]
      exact iff_of_false id fun h => hends (h _ rfl).1

/-- An inet_pton that knows one address of each family. -/
def oneOfEach : Inet where
  pton4 s := if s = bytesOf "192.168.100.200" then some fun i => [192, 168, 100, 200].getD i 0 else none
  pton6 s := if s = bytesOf "2001:db8::" then some fun i => [0x20, 1, 0xd, 0xb8].getD i 0 else none

theorem calculates_customer :
    Calculates oneOfEach (bytesOf "2001:db8::/32") (bytesOf "192.168.100.200/24") ↔
      FitsBuffers oneOfEach (bytesOf "2001:db8::/32") (bytesOf "192.168.100.200/24") :=
  calculates_iff oneOfEach (by decide) (by decide)

/-- The number in the longest IPv4 argument has no room for a leading zero. -/
theorem leading_zero_outside :
    sixRdCalc oneOfEach (bytesOf "2001:db8::/32") (bytesOf "192.168.100.200/024") = .error .outside ∧
      ¬Calculates oneOfEach (bytesOf "2001:db8::/32") (bytesOf "192.168.100.200/024") := by
  have hrun : sixRdCalc oneOfEach (bytesOf "2001:db8::/32") (bytesOf "192.168.100.200/024") =
      .error .outside := rfl
  refine ⟨hrun, fun h => ?_⟩
  rw [Calculates, hrun] at h
  exact h

end Iot7688.SixRdCalc
