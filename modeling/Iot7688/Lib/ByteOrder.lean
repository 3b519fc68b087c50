import Iot7688.Lib.Memory

/-!
32-bit words in the memory of a host of either byte order. A host sees the word that is
stored in network order through ntohl, which respects the bitwise operations but not the
sums: a carry out of a byte goes into the wrong one. Words as lists of four bytes, the most
significant first, are at the end.
-/
namespace Iot7688.Lib

inductive Host
  | little
  | big
deriving DecidableEq

/-- The word of four bytes, the most significant first. -/
def word (a b c d : Byte) : BitVec 32 := a.toBitVec ++ b.toBitVec ++ c.toBitVec ++ d.toBitVec

def byte (x : BitVec 32) (i : ℕ) : Byte := ⟨x.extractLsb' (8 * i) 8⟩

def swap (x : BitVec 32) : BitVec 32 := word (byte x 0) (byte x 1) (byte x 2) (byte x 3)

def ntohl : Host → BitVec 32 → BitVec 32
  | .little, x => swap x
  | .big, x => x

def htonl (h : Host) (x : BitVec 32) : BitVec 32 := ntohl h x

def loadWord : Host → Mem → BitVec 32
  | .little, m => word (m 3) (m 2) (m 1) (m 0)
  | .big, m => word (m 0) (m 1) (m 2) (m 3)

def storeWord (h : Host) (x : BitVec 32) (m : Mem) : Mem :=
  m.copy 0 4 fun i => match h with
    | .little => byte x i
    | .big => byte x (3 - i)

theorem word_byte (x : BitVec 32) : word (byte x 3) (byte x 2) (byte x 1) (byte x 0) = x := by
  unfold word byte
  apply BitVec.eq_of_getLsbD_eq
  intro i hi
  simp only [BitVec.getLsbD_append, BitVec.getLsbD_extractLsb']
  grind

theorem toNat_byte (x : BitVec 32) (i : ℕ) : (byte x i).toNat = x.toNat / 2 ^ (8 * i) % 2 ^ 8 := by
  show (x.extractLsb' (8 * i) 8).toNat = _
  rw [BitVec.extractLsb'_toNat, Nat.shiftRight_eq_div_pow]

section

variable (a b c d : Byte)

theorem toNat_word :
    (word a b c d).toNat = a.toNat * 2 ^ 24 + b.toNat * 2 ^ 16 + c.toNat * 2 ^ 8 + d.toNat := by
  have hb := b.toNat_lt
  have hc := c.toNat_lt
  have hd := d.toNat_lt
  unfold word
  simp only [BitVec.toNat_append, UInt8.toNat_toBitVec]
  rw [← Nat.shiftLeft_add_eq_or_of_lt (by omega), ← Nat.shiftLeft_add_eq_or_of_lt (by omega),
    ← Nat.shiftLeft_add_eq_or_of_lt (by omega)]
  simp only [Nat.shiftLeft_eq]
  omega

theorem byte_word : byte (word a b c d) 3 = a ∧ byte (word a b c d) 2 = b ∧
    byte (word a b c d) 1 = c ∧ byte (word a b c d) 0 = d := by
  have ha := a.toNat_lt
  have hb := b.toNat_lt
  have hc := c.toNat_lt
  have hd := d.toNat_lt
  refine ⟨?_, ?_, ?_, ?_⟩ <;> apply UInt8.toNat_inj.mp <;> rw [toNat_byte, toNat_word] <;> omega

theorem swap_word : swap (word a b c d) = word d c b a := by
  obtain ⟨ha, hb, hc, hd⟩ := byte_word a b c d
  unfold swap
  rw [ha, hb, hc, hd]

end

theorem byte_swap (x : BitVec 32) {i : ℕ} (hi : i ≤ 3) : byte (swap x) i = byte x (3 - i) := by
  obtain ⟨ha, hb, hc, hd⟩ := byte_word (byte x 0) (byte x 1) (byte x 2) (byte x 3)
  obtain rfl | rfl | rfl | rfl : i = 0 ∨ i = 1 ∨ i = 2 ∨ i = 3 := by omega
  · exact hd
  · exact hc
  · exact hb
  · exact ha

theorem swap_swap (x : BitVec 32) : swap (swap x) = x := by
  conv_rhs => rw [← word_byte x]
  exact swap_word (byte x 0) (byte x 1) (byte x 2) (byte x 3)

theorem byte_and (x y : BitVec 32) (i : ℕ) : byte (x &&& y) i = byte x i &&& byte y i := by
  apply UInt8.toBitVec_inj.mp
  exact BitVec.extractLsb'_and

theorem byte_or (x y : BitVec 32) (i : ℕ) : byte (x ||| y) i = byte x i ||| byte y i := by
  apply UInt8.toBitVec_inj.mp
  exact BitVec.extractLsb'_or

theorem word_ext {x y : BitVec 32} (h : ∀ i, i ≤ 3 → byte x i = byte y i) : x = y := by
  rw [← word_byte x, ← word_byte y, h 3 (by omega), h 2 (by omega), h 1 (by omega), h 0 (by omega)]

theorem swap_and (x y : BitVec 32) : swap (x &&& y) = swap x &&& swap y :=
  word_ext fun i hi => by
    rw [byte_and, byte_swap _ hi, byte_swap _ hi, byte_swap _ hi, byte_and]

theorem swap_or (x y : BitVec 32) : swap (x ||| y) = swap x ||| swap y :=
  word_ext fun i hi => by
    rw [byte_or, byte_swap _ hi, byte_swap _ hi, byte_swap _ hi, byte_or]

section

variable (h : Host) (x y : BitVec 32) (m : Mem)

@[simp] theorem ntohl_htonl : ntohl h (htonl h x) = x := by
  cases h with
  | little => exact swap_swap x
  | big => rfl

theorem loadWord_eq : loadWord h m = htonl h (loadWord .big m) := by
  cases h with
  | little => exact (swap_word (m 0) (m 1) (m 2) (m 3)).symm
  | big => rfl

theorem storeWord_eq : storeWord h x m = storeWord .big (ntohl h x) m := by
  cases h with
  | little =>
    refine Mem.copy_congr m 0 4 fun i hi => ?_
    dsimp only [ntohl]
    rw [byte_swap x (by omega)]
    congr 1
    omega
  | big => rfl

/-- What a host reads through ntohl does not depend on it. -/
theorem ntohl_loadWord : ntohl h (loadWord h m) = loadWord .big m := by
  rw [loadWord_eq, ntohl_htonl]

theorem storeWord_htonl : storeWord h (htonl h x) m = storeWord .big x m := by
  rw [storeWord_eq, ntohl_htonl]

theorem htonl_and : htonl h x &&& htonl h y = htonl h (x &&& y) := by
  cases h with
  | little => exact (swap_and x y).symm
  | big => rfl

theorem htonl_or : htonl h x ||| htonl h y = htonl h (x ||| y) := by
  cases h with
  | little => exact (swap_or x y).symm
  | big => rfl

theorem htonl_inj : htonl h x = htonl h y ↔ x = y := by
  refine ⟨fun hxy => ?_, fun hxy => hxy ▸ rfl⟩
  rw [← ntohl_htonl h x, hxy, ntohl_htonl]

theorem loadWord_storeWord : loadWord .big (storeWord .big x m) = x := by
  have hbyte {i : ℕ} (hi : i < 4) : storeWord .big x m i = byte x (3 - i) := Mem.copy_start m _ hi
  unfold loadWord
  dsimp only
  rw [hbyte (by omega), hbyte (by omega), hbyte (by omega), hbyte (by omega)]
  exact word_byte x

end

/-- A word and its swap in terms of the four bytes. -/
theorem toNat_bytes (x : BitVec 32) : ∃ a b c d, a < 2 ^ 8 ∧ b < 2 ^ 8 ∧ c < 2 ^ 8 ∧ d < 2 ^ 8 ∧
    (byte x 3).toNat = a ∧ (byte x 2).toNat = b ∧ (byte x 1).toNat = c ∧ (byte x 0).toNat = d ∧
    x.toNat = a * 2 ^ 24 + b * 2 ^ 16 + c * 2 ^ 8 + d ∧
    (swap x).toNat = d * 2 ^ 24 + c * 2 ^ 16 + b * 2 ^ 8 + a := by
  refine ⟨_, _, _, _, UInt8.toNat_lt _, UInt8.toNat_lt _, UInt8.toNat_lt _, UInt8.toNat_lt _,
    rfl, rfl, rfl, rfl, ?_, toNat_word _ _ _ _⟩
  rw [← toNat_word, word_byte]

/-- A bit of a word and of its swap, by its place in a byte. -/
theorem toNat_bit {k : ℕ} (hk : k < 32) : ∃ w, 2 ^ (k % 8) = w ∧ 1 ≤ w ∧ w ≤ 2 ^ 7 ∧
    (1#32 <<< k).toNat = 2 ^ k ∧
    (k / 8 = 0 ∧ 2 ^ k = w ∧ (swap (1#32 <<< k)).toNat = w * 2 ^ 24 ∨
      k / 8 = 1 ∧ 2 ^ k = w * 2 ^ 8 ∧ (swap (1#32 <<< k)).toNat = w * 2 ^ 16 ∨
      k / 8 = 2 ∧ 2 ^ k = w * 2 ^ 16 ∧ (swap (1#32 <<< k)).toNat = w * 2 ^ 8 ∨
      k / 8 = 3 ∧ 2 ^ k = w * 2 ^ 24 ∧ (swap (1#32 <<< k)).toNat = w) := by
  have hlt : 2 ^ k < 2 ^ 32 := Nat.pow_lt_pow_right (by omega) hk
  have hle : 2 ^ (k % 8) ≤ 2 ^ 7 := Nat.pow_le_pow_right (by omega) (by omega)
  have hbit : (1#32 <<< k).toNat = 2 ^ k := by
    rw [BitVec.toNat_shiftLeft, Nat.shiftLeft_eq, BitVec.toNat_ofNat, Nat.one_mod, Nat.one_mul]
    exact Nat.mod_eq_of_lt hlt
  have hsplit : 2 ^ k = 2 ^ (k % 8) * 2 ^ (8 * (k / 8)) := by
    rw [← Nat.pow_add, Nat.mod_add_div]
  refine ⟨_, rfl, Nat.one_le_two_pow, hle, hbit, ?_⟩
  obtain ⟨a, b, c, d, ha, hb, hc, hd, -, -, -, -, hy, hswap⟩ := toNat_bytes (1#32 <<< k)
  rw [hbit, hsplit] at hy
  rw [hswap, hsplit]
  clear hlt hbit hsplit hswap
  generalize 2 ^ (k % 8) = w at hy hle ⊢
  obtain hq | hq | hq | hq : k / 8 = 0 ∨ k / 8 = 1 ∨ k / 8 = 2 ∨ k / 8 = 3 := by omega
  · rw [show 2 ^ (8 * (k / 8)) = 1 by rw [hq, Nat.mul_zero, Nat.pow_zero], Nat.mul_one] at hy ⊢
    obtain ⟨rfl, rfl, rfl⟩ : a = 0 ∧ b = 0 ∧ c = 0 := by omega
    exact Or.inl ⟨hq, rfl, by omega⟩
  · rw [show 2 ^ (8 * (k / 8)) = 2 ^ 8 by rw [hq]] at hy ⊢
    obtain ⟨rfl, rfl, rfl⟩ : a = 0 ∧ b = 0 ∧ d = 0 := by omega
    obtain rfl : w = c := by omega
    exact Or.inr (Or.inl ⟨hq, rfl, by simp⟩)
  · rw [show 2 ^ (8 * (k / 8)) = 2 ^ 16 by rw [hq]] at hy ⊢
    obtain ⟨rfl, rfl, rfl⟩ : a = 0 ∧ c = 0 ∧ d = 0 := by omega
    obtain rfl : w = b := by omega
    exact Or.inr (Or.inr (Or.inl ⟨hq, rfl, by simp⟩))
  · rw [show 2 ^ (8 * (k / 8)) = 2 ^ 24 by rw [hq]] at hy ⊢
    obtain ⟨rfl, rfl, rfl⟩ : b = 0 ∧ c = 0 ∧ d = 0 := by omega
    obtain rfl : w = a := by omega
    exact Or.inr (Or.inr (Or.inr ⟨hq, rfl, by simp⟩))

section

variable {a b c d a' b' c' d' w : ℕ}

/-- The sum of a byte and a digit at place q of the swapped word, with the digits of the
result read backwards. -/
theorem add_digit_iff (ha : a < 2 ^ 8) (hb : b < 2 ^ 8) (hc : c < 2 ^ 8) (hd : d < 2 ^ 8)
    (ha' : a' < 2 ^ 8) (hb' : b' < 2 ^ 8) (hc' : c' < 2 ^ 8) (hd' : d' < 2 ^ 8)
    (hpos : 1 ≤ w) (hle : w ≤ 2 ^ 7) {y v e : ℕ}
    (hz : (d * 2 ^ 24 + c * 2 ^ 16 + b * 2 ^ 8 + a + y) % 2 ^ 32 =
      a' * 2 ^ 24 + b' * 2 ^ 16 + c' * 2 ^ 8 + d')
    (hy : y = w * 2 ^ 24 ∧ v = w ∧ e = d ∨ y = w * 2 ^ 16 ∧ v = w * 2 ^ 8 ∧ e = c ∨
      y = w * 2 ^ 8 ∧ v = w * 2 ^ 16 ∧ e = b ∨ y = w ∧ v = w * 2 ^ 24 ∧ e = a) :
    d' * 2 ^ 24 + c' * 2 ^ 16 + b' * 2 ^ 8 + a' = a * 2 ^ 24 + b * 2 ^ 16 + c * 2 ^ 8 + d + v ↔
      e + w < 2 ^ 8 := by
  obtain ⟨hy, rfl, rfl⟩ | ⟨hy, rfl, rfl⟩ | ⟨hy, rfl, rfl⟩ | ⟨hy, rfl, rfl⟩ := hy <;> rw [hy] at hz <;>
    clear hy
  · have hd1 : d' = a := by omega
    have hc1 : c' = b := by omega
    have hb1 : b' = c := by omega
    omega
  · have hd1 : d' = a := by omega
    have hc1 : c' = b := by omega
    by_cases hcarry : e + w < 2 ^ 8
    · have hb1 : b' = e + w := by omega
      omega
    · have hb1 : b' + 2 ^ 8 = e + w := by omega
      omega
  · have hd1 : d' = a := by omega
    by_cases hcarry : e + w < 2 ^ 8
    · have hc1 : c' = e + w := by omega
      have hb1 : b' = c := by omega
      omega
    · have hc1 : c' + 2 ^ 8 = e + w := by omega
      omega
  · by_cases hcarry : e + w < 2 ^ 8
    · have hd1 : d' = e + w := by omega
      have hc1 : c' = b := by omega
      have hb1 : b' = c := by omega
      omega
    · have hd1 : d' + 2 ^ 8 = e + w := by omega
      omega

theorem sub_digit_iff (ha : a < 2 ^ 8) (hb : b < 2 ^ 8) (hc : c < 2 ^ 8) (hd : d < 2 ^ 8)
    (ha' : a' < 2 ^ 8) (hb' : b' < 2 ^ 8) (hc' : c' < 2 ^ 8) (hd' : d' < 2 ^ 8)
    (hpos : 1 ≤ w) (hle : w ≤ 2 ^ 7) {y v e : ℕ}
    (hz : (2 ^ 32 - y + (d * 2 ^ 24 + c * 2 ^ 16 + b * 2 ^ 8 + a)) % 2 ^ 32 =
      a' * 2 ^ 24 + b' * 2 ^ 16 + c' * 2 ^ 8 + d')
    (hy : y = w * 2 ^ 24 ∧ v = w ∧ e = d ∨ y = w * 2 ^ 16 ∧ v = w * 2 ^ 8 ∧ e = c ∨
      y = w * 2 ^ 8 ∧ v = w * 2 ^ 16 ∧ e = b ∨ y = w ∧ v = w * 2 ^ 24 ∧ e = a) :
    d' * 2 ^ 24 + c' * 2 ^ 16 + b' * 2 ^ 8 + a' + v = a * 2 ^ 24 + b * 2 ^ 16 + c * 2 ^ 8 + d ↔
      w ≤ e := by
  obtain ⟨hy, rfl, rfl⟩ | ⟨hy, rfl, rfl⟩ | ⟨hy, rfl, rfl⟩ | ⟨hy, rfl, rfl⟩ := hy <;> rw [hy] at hz <;>
    clear hy
  · have hd1 : d' = a := by omega
    have hc1 : c' = b := by omega
    have hb1 : b' = c := by omega
    omega
  · have hd1 : d' = a := by omega
    have hc1 : c' = b := by omega
    by_cases hborrow : w ≤ e
    · have hb1 : b' + w = e := by omega
      omega
    · have hb1 : b' + w = e + 2 ^ 8 := by omega
      omega
  · have hd1 : d' = a := by omega
    by_cases hborrow : w ≤ e
    · have hc1 : c' + w = e := by omega
      have hb1 : b' = c := by omega
      omega
    · have hc1 : c' + w = e + 2 ^ 8 := by omega
      omega
  · by_cases hborrow : w ≤ e
    · have hd1 : d' + w = e := by omega
      have hc1 : c' = b := by omega
      have hb1 : b' = c := by omega
      omega
    · have hd1 : d' + w = e + 2 ^ 8 := by omega
      omega

end

/-- A bit is added to the word in memory without ntohl exactly when there is no carry out
of its byte. -/
theorem swap_add_bit_iff (x : BitVec 32) {k : ℕ} (hk : k < 32) :
    (swap (swap x + swap (1#32 <<< k))).toNat = x.toNat + 2 ^ k ↔
      (byte x (k / 8)).toNat + 2 ^ (k % 8) < 2 ^ 8 := by
  obtain ⟨w, hw, hpos, hle, -, hplace⟩ := toNat_bit hk
  obtain ⟨a, b, c, d, ha, hb, hc, hd, ha', hb', hc', hd', hx, hswap⟩ := toNat_bytes x
  obtain ⟨a2, b2, c2, d2, ha2, hb2, hc2, hd2, -, -, -, -, hz, hzswap⟩ :=
    toNat_bytes (swap x + swap (1#32 <<< k))
  rw [BitVec.toNat_add, hswap] at hz
  rw [hzswap, hx, hw]
  refine add_digit_iff ha hb hc hd ha2 hb2 hc2 hd2 hpos hle hz ?_
  obtain ⟨hq, hpow, hbit⟩ | ⟨hq, hpow, hbit⟩ | ⟨hq, hpow, hbit⟩ | ⟨hq, hpow, hbit⟩ := hplace
  · exact Or.inl ⟨hbit, hpow, hq ▸ hd'⟩
  · exact Or.inr (Or.inl ⟨hbit, hpow, hq ▸ hc'⟩)
  · exact Or.inr (Or.inr (Or.inl ⟨hbit, hpow, hq ▸ hb'⟩))
  · exact Or.inr (Or.inr (Or.inr ⟨hbit, hpow, hq ▸ ha'⟩))

theorem swap_sub_bit_iff (x : BitVec 32) {k : ℕ} (hk : k < 32) :
    (swap (swap x - swap (1#32 <<< k))).toNat + 2 ^ k = x.toNat ↔
      2 ^ (k % 8) ≤ (byte x (k / 8)).toNat := by
  obtain ⟨w, hw, hpos, hle, -, hplace⟩ := toNat_bit hk
  obtain ⟨a, b, c, d, ha, hb, hc, hd, ha', hb', hc', hd', hx, hswap⟩ := toNat_bytes x
  obtain ⟨a2, b2, c2, d2, ha2, hb2, hc2, hd2, -, -, -, -, hz, hzswap⟩ :=
    toNat_bytes (swap x - swap (1#32 <<< k))
  rw [BitVec.toNat_sub, hswap] at hz
  rw [hzswap, hx, hw]
  refine sub_digit_iff ha hb hc hd ha2 hb2 hc2 hd2 hpos hle hz ?_
  obtain ⟨hq, hpow, hbit⟩ | ⟨hq, hpow, hbit⟩ | ⟨hq, hpow, hbit⟩ | ⟨hq, hpow, hbit⟩ := hplace
  · exact Or.inl ⟨hbit, hpow, hq ▸ hd'⟩
  · exact Or.inr (Or.inl ⟨hbit, hpow, hq ▸ hc'⟩)
  · exact Or.inr (Or.inr (Or.inl ⟨hbit, hpow, hq ▸ hb'⟩))
  · exact Or.inr (Or.inr (Or.inr ⟨hbit, hpow, hq ▸ ha'⟩))

def be32 (x : UInt32) : List Byte :=
  [(x.toNat / 2 ^ 24).toUInt8, (x.toNat / 2 ^ 16).toUInt8, (x.toNat / 2 ^ 8).toUInt8,
    x.toNat.toUInt8]

def ofBe32 (bytes : List Byte) : UInt32 :=
  UInt32.ofNat (bytes.foldl (fun n b => n * 2 ^ 8 + b.toNat) 0)

theorem be32_length (x : UInt32) : (be32 x).length = 4 := rfl

theorem ofBe32_be32 (x : UInt32) : ofBe32 (be32 x) = x := by
  have hlt := x.toNat_lt
  apply UInt32.toNat_inj.mp
  simp only [be32, ofBe32, List.foldl_cons, List.foldl_nil, UInt32.toNat_ofNat', Nat.toUInt8,
    UInt8.toNat_ofNat']
  omega

theorem be32_ofBe32 {bytes : List Byte} (h : bytes.length = 4) : be32 (ofBe32 bytes) = bytes := by
  obtain ⟨a, b, c, d, rfl⟩ : ∃ a b c d, bytes = [a, b, c, d] := by
    match bytes, h with
    | [a, b, c, d], _ => exact ⟨a, b, c, d, rfl⟩
  have ha := a.toNat_lt
  have hb := b.toNat_lt
  have hc := c.toNat_lt
  have hd := d.toNat_lt
  simp only [be32, ofBe32, List.foldl_cons, List.foldl_nil, UInt32.toNat_ofNat', Nat.toUInt8,
    List.cons.injEq, ← UInt8.toNat_inj, UInt8.toNat_ofNat', and_true]
  omega

theorem be32_inj {x y : UInt32} : be32 x = be32 y ↔ x = y := by
  refine ⟨fun h => ?_, congrArg be32⟩
  rw [← ofBe32_be32 x, h, ofBe32_be32]

end Iot7688.Lib
