import Iot7688.Lib.Block
import Iot7688.Lib.ByteOrder
import Iot7688.Lib.Run

/-!
The encryption of the emergency access daemon and of its client. A message of a multiple of
64 bytes is encrypted in place block by block; it starts with the hash of the rest, a
counter that each side moves on by one to four for a message it sends, and the number of
padding bytes. AES and SHA are given from outside. What makes a message good is said of its
decrypted bytes, so that it holds of every buffer that begins with them. The counter is
checked in front of the hash, and the check moves the window on.
-/
namespace Iot7688.EadCrypt

open Lib

/-- struct ead_msg. The fields of the header are what ntohl makes of them; data is the
memory behind the header. -/
structure EadMsg where
  magic : BitVec 32
  len : BitVec 32
  type : BitVec 32
  nid : BitVec 16
  sid : BitVec 16
  data : Mem

/-- The five words of a hash. -/
abbrev Digest := Fin 5 → BitVec 32

/-- rijndaelEncrypt and rijndaelDecrypt with the contexts of a session key, sha_init and
sha_transform. -/
structure Ciphers where
  rijndaelEncrypt : Mem → Block 16 → Block 16
  rijndaelDecrypt : Mem → Block 16 → Block 16
  shaInit : Digest
  shaTransform : Digest → Block 64 → Digest

/-- The static variables; key is the session key that the contexts were set up with. -/
structure Crypt where
  key : Mem
  rxIv : BitVec 32
  txIv : BitVec 32
  ivofsVec : BitVec 32
  ivofsIdx : Fin 16

def sizeofEncrypted : ℕ := 25
def encPad : ℕ := 64
def maxIvIncr : ℕ := 128

/-- The places of hash, iv and pad in ead_msg_encrypted. -/
def ivOfs : ℕ := 20
def padOfs : ℕ := 24

def loadDigest (m : Mem) : Digest := fun i => loadWord .big (m.shift (4 * i))

def storeDigest (d : Digest) (m : Mem) : Mem :=
  fun x => if h : x < 20 then byte (d ⟨x / 4, by omega⟩) (3 - x % 4) else m x

def loadIv (m : Mem) : BitVec 32 := loadWord .big (m.shift ivOfs)

def storeIv (x : BitVec 32) (m : Mem) : Mem := m.copy ivOfs 4 fun i => byte x (3 - i)

/-- How often a loop runs that takes size from a positive int. -/
def rounds (size : ℕ) (len : BitVec 32) : ℕ := (len.toInt.toNat + size - 1) / size

/-- ead_set_key. The index of the increments is not set. -/
def eadSetKey (host : Host) (skey : Mem) (s : Crypt) : Crypt :=
  let iv := loadWord .big (skey.shift 32) &&& 0x00ffffff
  { s with key := skey, rxIv := iv, txIv := iv, ivofsVec := loadWord host (skey.shift 36) }

/-- ead_check_rx_iv. -/
def eadCheckRxIv (s : Crypt) (iv : BitVec 32) : Option Crypt :=
  if iv ≤ s.rxIv then none
  else if s.rxIv + BitVec.ofNat 32 maxIvIncr < iv then none
  else some { s with rxIv := iv }

/-- ead_get_tx_iv. -/
def eadGetTxIv (s : Crypt) : Crypt :=
  let ofs := 1 + (s.ivofsVec >>> (2 * s.ivofsIdx.1) &&& 3)
  { s with ivofsIdx := s.ivofsIdx + 1, txIv := s.txIv + ofs }

section

variable (c : Ciphers)

/-- ead_hash_message: the hash, and the message with its hash part zeroed. -/
def eadHashMessage (data : Mem) (len : BitVec 32) : Digest × Mem :=
  let data := data.fill 0 20 0
  (data.foldBlocks c.shaTransform (rounds 64 len) c.shaInit, data)

/-- ead_encrypt_message. -/
def eadEncryptMessage (s : Crypt) (msg : EadMsg) (len : BitVec 32) : Crypt × EadMsg :=
  let len := len + BitVec.ofNat 32 sizeofEncrypted
  let pad := (encPad - len.toNat % encPad) % encPad
  let enclen := len + BitVec.ofNat 32 pad
  let s := eadGetTxIv s
  let data := storeIv s.txIv (Function.update msg.data padOfs pad.toUInt8)
  let hash := eadHashMessage c data enclen
  let data := storeDigest hash.1 hash.2
  (s, { msg with
    len := enclen
    data := data.mapBlocks (c.rijndaelEncrypt s.key) (rounds 16 enclen) })

/-- ead_decrypt_message, with the int that it returns. -/
def eadDecryptMessage (s : Crypt) (msg : EadMsg) : Crypt × EadMsg × BitVec 32 :=
  if msg.len = 0 ∨ 0 < msg.len.toInt.tmod encPad then (s, msg, 0)
  else
    let data := msg.data.mapBlocks (c.rijndaelDecrypt s.key) (rounds 16 msg.len)
    let msg := { msg with data := data }
    if encPad ≤ (data padOfs).toNat then (s, msg, 0)
    else
      match eadCheckRxIv s (loadIv data) with
      | none => (s, msg, 0)
      | some s =>
          let hash := eadHashMessage c data msg.len
          let msg := { msg with data := hash.2 }
          if ∀ i, loadDigest data i = hash.1 i then
            (s, msg, msg.len - BitVec.ofNat 32 ((data padOfs).toNat + sizeofEncrypted))
          else (s, msg, 0)

end

theorem loadDigest_storeDigest (d : Digest) (m : Mem) : loadDigest (storeDigest d m) = d := by
  have hbyte (i : Fin 5) (j : ℕ) (hj : j < 4) :
      storeDigest d m (4 * i + j) = byte (d i) (3 - j) := by
    unfold storeDigest
    rw [dif_pos (by omega)]
    congr 2
    · apply Fin.ext
      show (4 * i.1 + j) / 4 = i.1
      omega
    · omega
  funext i
  unfold loadDigest loadWord
  dsimp only [Mem.shift_apply]
  rw [hbyte i 0 (by omega), hbyte i 1 (by omega), hbyte i 2 (by omega), hbyte i 3 (by omega)]
  exact word_byte (d i)

theorem storeDigest_outside (d : Digest) (m : Mem) {x : ℕ} (hx : 20 ≤ x) :
    storeDigest d m x = m x := by
  unfold storeDigest
  rw [dif_neg (by omega)]

theorem fill_outside (m : Mem) {x : ℕ} (hx : 20 ≤ x) : m.fill 0 20 0 x = m x := by
  unfold Mem.fill
  rw [if_neg (by omega)]

/-- The hash is of a message without its hash. -/
theorem fill_storeDigest (d : Digest) (m : Mem) :
    (storeDigest d (m.fill 0 20 0)).fill 0 20 0 = m.fill 0 20 0 := by
  funext x
  by_cases hx : x < 20
  · unfold Mem.fill
    rw [if_pos (by omega), if_pos (by omega)]
  · rw [fill_outside _ (by omega), storeDigest_outside _ _ (by omega)]

theorem loadIv_congr {m m' : Mem} (h : ∀ x, ivOfs ≤ x → x < padOfs → m x = m' x) :
    loadIv m = loadIv m' := by
  have hbyte (j : ℕ) (hj : j < 4) : m (ivOfs + j) = m' (ivOfs + j) :=
    h _ (by omega) (by unfold padOfs; unfold ivOfs; omega)
  unfold loadIv loadWord
  dsimp only [Mem.shift_apply]
  rw [hbyte 0 (by omega), hbyte 1 (by omega), hbyte 2 (by omega), hbyte 3 (by omega)]

theorem loadIv_storeIv (x : BitVec 32) (m : Mem) : loadIv (storeIv x m) = x := by
  have hbyte (j : ℕ) (hj : j < 4) : storeIv x m (ivOfs + j) = byte x (3 - j) :=
    Mem.copy_inside m _ hj
  unfold loadIv loadWord
  dsimp only [Mem.shift_apply]
  rw [hbyte 0 (by omega), hbyte 1 (by omega), hbyte 2 (by omega), hbyte 3 (by omega)]
  exact word_byte x

theorem storeIv_outside (x : BitVec 32) (m : Mem) {i : ℕ} (hi : padOfs ≤ i) :
    storeIv x m i = m i :=
  Mem.copy_outside m _ (.inr hi)

theorem rounds_of_lt {size : ℕ} {len : BitVec 32} (hsmall : len.toNat < 2 ^ 31)
    (hdvd : size * (len.toNat / size) = len.toNat) (hpos : 0 < size) :
    rounds size len = len.toNat / size := by
  have htoInt : len.toInt.toNat = len.toNat := by
    rw [BitVec.toInt_eq_toNat_of_lt (by omega)]
    exact Int.toNat_natCast _
  unfold rounds
  rw [htoInt]
  conv_lhs => rw [← hdvd, Nat.add_sub_assoc hpos, Nat.mul_add_div hpos]
  rw [Nat.div_eq_of_lt (by omega : size - 1 < size), Nat.add_zero]

section

variable (c : Ciphers)

/-- The data of a message after the decryption. -/
def opened (key : Mem) (msg : EadMsg) : Mem :=
  msg.data.mapBlocks (c.rijndaelDecrypt key) (rounds 16 msg.len)

/-- A message of n bytes of payload with a counter, as it is decrypted with a key. -/
structure Sealed (key : Mem) (msg : EadMsg) (iv : BitVec 32) (payload : Mem) (n : ℕ) : Prop where
  small : msg.len.toNat < 2 ^ 31
  blocks : msg.len.toNat % encPad = 0
  pad : (opened c key msg padOfs).toNat < encPad
  size : msg.len.toNat = n + sizeofEncrypted + (opened c key msg padOfs).toNat
  counter : loadIv (opened c key msg) = iv
  hash : ∀ i, loadDigest (opened c key msg) i =
    (eadHashMessage c (opened c key msg) msg.len).1 i
  bytes : ∀ i, i < n → opened c key msg (sizeofEncrypted + i) = payload i

/-- A buffer that begins with the message. -/
structure Holds (buf msg : EadMsg) : Prop where
  len : buf.len = msg.len
  data : ∀ i, i < msg.len.toNat → buf.data i = msg.data i

variable {c} {key : Mem} {msg buf : EadMsg} {iv : BitVec 32} {payload : Mem} {n : ℕ}

/-- The loops of the decryption and of the hash run over the whole message. -/
theorem rounds_message (hsmall : msg.len.toNat < 2 ^ 31) (hblocks : msg.len.toNat % encPad = 0) :
    16 * rounds 16 msg.len = msg.len.toNat ∧ 64 * rounds 64 msg.len = msg.len.toNat := by
  unfold encPad at hblocks
  rw [rounds_of_lt hsmall (by omega) (by omega), rounds_of_lt hsmall (by omega) (by omega)]
  omega

theorem eadHashMessage_congr {m m' : Mem} {len : BitVec 32}
    (h : ∀ x, x < 64 * rounds 64 len → m x = m' x) :
    (eadHashMessage c m len).1 = (eadHashMessage c m' len).1 := by
  refine Mem.foldBlocks_congr _ fun x hx => ?_
  unfold Mem.fill
  rw [h x hx]

theorem loadDigest_congr {m m' : Mem} (h : ∀ x, x < 20 → m x = m' x) :
    loadDigest m = loadDigest m' := by
  funext i
  unfold loadDigest loadWord
  dsimp only [Mem.shift_apply]
  rw [h _ (by omega), h _ (by omega), h _ (by omega), h _ (by omega)]

theorem Sealed.of_holds (h : Sealed c key msg iv payload n) (hbuf : Holds buf msg) :
    Sealed c key buf iv payload n := by
  have hsize := h.size
  unfold sizeofEncrypted at hsize
  obtain ⟨hrounds, hhashed⟩ := rounds_message h.small h.blocks
  have hopened : ∀ x, x < msg.len.toNat → opened c key buf x = opened c key msg x := by
    intro x hx
    unfold opened
    rw [hbuf.len]
    exact Mem.mapBlocks_congr (fun y hy => hbuf.data y (by omega)) (by omega)
  have hpad : opened c key buf padOfs = opened c key msg padOfs :=
    hopened _ (by unfold padOfs; omega)
  refine ⟨hbuf.len ▸ h.small, hbuf.len ▸ h.blocks, hpad ▸ h.pad, ?_, ?_, ?_, ?_⟩
  · rw [hbuf.len, hpad]
    exact h.size
  · rw [← h.counter]
    exact loadIv_congr fun x _ hx => hopened x (by unfold padOfs at hx; omega)
  · rw [hbuf.len, eadHashMessage_congr fun x hx => hopened x (by omega),
      loadDigest_congr fun x hx => hopened x (by omega)]
    exact h.hash
  · intro i hi
    rw [hopened _ (by unfold sizeofEncrypted; omega)]
    exact h.bytes i hi

/-- A message gives its payload back unless the counter is refused. -/
theorem eadDecryptMessage_of_sealed {s : Crypt} (h : Sealed c s.key msg iv payload n) :
    eadDecryptMessage c s msg =
      match eadCheckRxIv s iv with
      | none => (s, { msg with data := opened c s.key msg }, 0)
      | some s' =>
          (s', { msg with data := (opened c s.key msg).fill 0 20 0 }, BitVec.ofNat 32 n) := by
  have hsize := h.size
  have hsmall := h.small
  have hzero : msg.len ≠ 0 := fun hlen => by
    rw [hlen, show (0 : BitVec 32).toNat = 0 from rfl] at hsize
    unfold sizeofEncrypted at hsize
    omega
  have hmod : msg.len.toInt.tmod encPad = 0 := by
    rw [BitVec.toInt_eq_toNat_of_lt (by omega), ← Int.ofNat_tmod, h.blocks]
    rfl
  have hlen : msg.len - BitVec.ofNat 32 ((opened c s.key msg padOfs).toNat + sizeofEncrypted) =
      BitVec.ofNat 32 n := by
    generalize (opened c s.key msg padOfs).toNat = pad at hsize ⊢
    apply BitVec.eq_of_toNat_eq
    rw [BitVec.toNat_sub, BitVec.toNat_ofNat, BitVec.toNat_ofNat]
    omega
  have hpad : ¬encPad ≤ (opened c s.key msg padOfs).toNat := Nat.not_le.mpr h.pad
  unfold eadDecryptMessage
  rw [if_neg (by rintro (hz | hz); exacts [hzero hz, by omega])]
  dsimp only
  rw [← opened, if_neg hpad, h.counter]
  cases eadCheckRxIv s iv with
  | none => rfl
  | some s' =>
    dsimp only
    rw [if_pos h.hash, hlen]
    rfl

/-- The plain text of a message: hash, counter, padding length and the rest of the buffer. -/
def plain (c : Ciphers) (data : Mem) (iv : BitVec 32) (pad : ℕ) (enclen : BitVec 32) : Mem :=
  let hash := eadHashMessage c (storeIv iv (Function.update data padOfs pad.toUInt8)) enclen
  storeDigest hash.1 hash.2

theorem plain_rest (data : Mem) (iv : BitVec 32) (pad : ℕ) (enclen : BitVec 32) {x : ℕ}
    (hx : padOfs < x) : plain c data iv pad enclen x = data x := by
  unfold padOfs at hx
  unfold plain eadHashMessage
  dsimp only
  rw [storeDigest_outside _ _ (by omega), fill_outside _ (by omega),
    storeIv_outside _ _ (by unfold padOfs; omega), Function.update_of_ne (by unfold padOfs; omega)]

theorem plain_pad (data : Mem) (iv : BitVec 32) (pad : ℕ) (enclen : BitVec 32) :
    plain c data iv pad enclen padOfs = pad.toUInt8 := by
  unfold plain eadHashMessage
  dsimp only
  rw [storeDigest_outside _ _ (by decide), fill_outside _ (by decide),
    storeIv_outside _ _ (Nat.le_refl _), Function.update_self]

theorem plain_iv (data : Mem) (iv : BitVec 32) (pad : ℕ) (enclen : BitVec 32) :
    loadIv (plain c data iv pad enclen) = iv := by
  conv_rhs => rw [← loadIv_storeIv iv (Function.update data padOfs pad.toUInt8)]
  refine loadIv_congr fun x hx _ => ?_
  unfold ivOfs at hx
  unfold plain eadHashMessage
  dsimp only
  rw [storeDigest_outside _ _ hx, fill_outside _ hx]

theorem plain_hash (data : Mem) (iv : BitVec 32) (pad : ℕ) (enclen : BitVec 32) (i : Fin 5) :
    loadDigest (plain c data iv pad enclen) i =
      (eadHashMessage c (plain c data iv pad enclen) enclen).1 i := by
  unfold plain
  dsimp only
  rw [loadDigest_storeDigest]
  unfold eadHashMessage
  dsimp only
  rw [fill_storeDigest]

theorem toNat_message {pad : ℕ} (hn : n + 88 < 2 ^ 31)
    (hpad : (encPad - (n + sizeofEncrypted) % encPad) % encPad = pad) :
    (BitVec.ofNat 32 n + BitVec.ofNat 32 sizeofEncrypted + BitVec.ofNat 32 pad).toNat =
      n + sizeofEncrypted + pad ∧ (n + sizeofEncrypted + pad) % encPad = 0 ∧ pad < encPad := by
  unfold encPad sizeofEncrypted at *
  refine ⟨?_, by omega, by omega⟩
  rw [BitVec.toNat_add, BitVec.toNat_add, BitVec.toNat_ofNat, BitVec.toNat_ofNat,
    BitVec.toNat_ofNat]
  omega

/-- What ead_encrypt_message makes of n bytes. -/
theorem eadEncryptMessage_eq (s : Crypt) (msg : EadMsg) (hn : n + 88 < 2 ^ 31) :
    ∃ pad enclen, enclen.toNat = n + sizeofEncrypted + pad ∧ enclen.toNat % encPad = 0 ∧
      pad < encPad ∧ eadEncryptMessage c s msg (BitVec.ofNat 32 n) = (eadGetTxIv s, { msg with
        len := enclen
        data := (plain c msg.data (eadGetTxIv s).txIv pad enclen).mapBlocks
          (c.rijndaelEncrypt s.key) (rounds 16 enclen) }) := by
  have hlen : (BitVec.ofNat 32 n + BitVec.ofNat 32 sizeofEncrypted).toNat =
      n + sizeofEncrypted := by
    unfold sizeofEncrypted
    rw [BitVec.toNat_add, BitVec.toNat_ofNat, BitVec.toNat_ofNat]
    omega
  obtain ⟨htotal, hblocks, hlt⟩ := toNat_message hn rfl
  refine ⟨_, _, htotal, htotal ▸ hblocks, hlt, ?_⟩
  rw [← hlen]
  rfl

/-- The message is good, and holds the payload that was in its place. -/
theorem eadEncryptMessage_sealed
    (hinv : ∀ key b, c.rijndaelDecrypt key (c.rijndaelEncrypt key b) = b) (s : Crypt)
    (msg : EadMsg) (hn : n + 88 < 2 ^ 31) :
    Sealed c s.key (eadEncryptMessage c s msg (BitVec.ofNat 32 n)).2 (eadGetTxIv s).txIv
      (msg.data.shift sizeofEncrypted) n := by
  obtain ⟨pad, enclen, htotal, hblocks, hlt, heq⟩ := eadEncryptMessage_eq s msg hn
  rw [heq]
  dsimp only
  have hopened : opened c s.key { msg with
      len := enclen
      data := (plain c msg.data (eadGetTxIv s).txIv pad enclen).mapBlocks
        (c.rijndaelEncrypt s.key) (rounds 16 enclen) } =
      plain c msg.data (eadGetTxIv s).txIv pad enclen :=
    Mem.mapBlocks_inverse (hinv s.key) _ _
  have hpad : pad.toUInt8.toNat = pad := by
    unfold encPad at hlt
    exact Nat.mod_eq_of_lt (by omega)
  constructor
  · unfold sizeofEncrypted encPad at *
    dsimp only
    omega
  · exact hblocks
  · rw [hopened, plain_pad, hpad]
    exact hlt
  · rw [hopened, plain_pad, hpad]
    exact htotal
  · rw [hopened]
    exact plain_iv _ _ _ _
  · rw [hopened]
    exact plain_hash _ _ _ _
  · intro i _
    rw [hopened, plain_rest _ _ _ _ (by unfold padOfs sizeofEncrypted; omega)]
    rfl

end

/-- The increment of the next message. -/
def increment (s : Crypt) : ℕ := (1 + (s.ivofsVec >>> (2 * s.ivofsIdx.1) &&& 3)).toNat

/-- The counter after some messages, if it does not overflow. -/
def counter (s : Crypt) : ℕ → ℕ
  | 0 => s.txIv.toNat
  | k + 1 => counter s k + increment (eadGetTxIv^[k] s)

theorem increment_bounds (s : Crypt) : 1 ≤ increment s ∧ increment s ≤ 4 := by
  unfold increment
  generalize s.ivofsVec >>> (2 * s.ivofsIdx.1) = v
  have hand : (v &&& 3).toNat < 4 := by
    rw [BitVec.toNat_and, Nat.and_comm]
    exact lt_of_le_of_lt Nat.and_le_left (by decide)
  rw [BitVec.toNat_add, show (1 : BitVec 32).toNat = 1 from rfl]
  omega

theorem toNat_eadGetTxIv {s : Crypt} (h : s.txIv.toNat + increment s < 2 ^ 32) :
    (eadGetTxIv s).txIv.toNat = s.txIv.toNat + increment s := by
  unfold eadGetTxIv
  dsimp only
  rw [BitVec.toNat_add, ← increment]
  exact Nat.mod_eq_of_lt h

section

variable (s : Crypt)

theorem counter_add (a k : ℕ) : counter s a + k ≤ counter s (a + k) ∧
    counter s (a + k) ≤ counter s a + 4 * k := by
  induction k with
  | zero => exact ⟨le_refl _, le_refl _⟩
  | succ k ih =>
    have hinc := increment_bounds (eadGetTxIv^[a + k] s)
    have hsucc : counter s (a + (k + 1)) = counter s (a + k) +
        increment (eadGetTxIv^[a + k] s) := rfl
    omega

theorem counter_mono {a b : ℕ} (h : a ≤ b) : counter s a ≤ counter s b := by
  obtain ⟨k, rfl⟩ := Nat.exists_eq_add_of_le h
  have := (counter_add s a k).1
  omega

theorem toNat_txIv {k : ℕ} (h : counter s k < 2 ^ 32) :
    (eadGetTxIv^[k] s).txIv.toNat = counter s k := by
  induction k with
  | zero => rfl
  | succ k ih =>
    have hsucc : counter s (k + 1) = counter s k + increment (eadGetTxIv^[k] s) := rfl
    have hk := ih (by omega)
    rw [Function.iterate_succ_apply', toNat_eadGetTxIv (by omega), hsucc, hk]

end

/-- The buffer with a payload in its place. -/
def place (buf : EadMsg) (p : List Byte) : EadMsg :=
  { buf with data := buf.data.copy sizeofEncrypted p.length fun i => p.getD i 0 }

/-- The n bytes in the place of the payload. -/
def payloadOf (msg : EadMsg) (n : ℕ) : List Byte :=
  (List.range n).map fun i => msg.data (sizeofEncrypted + i)

/-- The payload that is placed in a buffer is the one of the message. -/
theorem eadEncryptMessage_place {c : Ciphers}
    (hinv : ∀ key b, c.rijndaelDecrypt key (c.rijndaelEncrypt key b) = b) (s : Crypt)
    (buf : EadMsg) {p : List Byte} (hp : p.length + 88 < 2 ^ 31) :
    Sealed c s.key (eadEncryptMessage c s (place buf p) (BitVec.ofNat 32 p.length)).2
      (eadGetTxIv s).txIv (fun i => p.getD i 0) p.length := by
  have hsealed := eadEncryptMessage_sealed hinv s (place buf p) hp
  refine ⟨hsealed.small, hsealed.blocks, hsealed.pad, hsealed.size, hsealed.counter, hsealed.hash,
    fun j hj => (hsealed.bytes j hj).trans ?_⟩
  exact Mem.copy_inside buf.data (fun i => p.getD i 0) hj

theorem payloadOf_eq {msg : EadMsg} {p : List Byte}
    (h : ∀ i, i < p.length → msg.data (sizeofEncrypted + i) = p.getD i 0) :
    payloadOf msg p.length = p := by
  apply List.ext_getElem
  · simp [payloadOf]
  · intro i _ hi
    simp only [payloadOf, List.getElem_map, List.getElem_range]
    rw [h i hi, List.getD_eq_getElem?_getD, List.getElem?_eq_getElem hi, Option.getD_some]

/-- The messages that are made of payloads, each in a buffer. -/
def sendAll (c : Ciphers) : Crypt → List (EadMsg × List Byte) → List EadMsg
  | _, [] => []
  | s, (buf, p) :: sends =>
      let r := eadEncryptMessage c s (place buf p) (BitVec.ofNat 32 p.length)
      r.2 :: sendAll c r.1 sends

/-- Message number index arrives in a buffer. -/
structure Delivery where
  index : ℕ
  buf : EadMsg

section

variable (c : Ciphers) (s : Crypt) (sends : List (EadMsg × List Byte))

/-- The receiver, and the number of messages up to the last one that was taken. -/
def deliver (r : Crypt × ℕ) (d : Delivery) : Crypt × ℕ :=
  ((eadDecryptMessage c r.1 d.buf).1, max r.2 (d.index + 1))

/-- The message was sent, and at most 31 messages in front of it are missing. -/
def InWindow (r : Crypt × ℕ) (d : Delivery) : Prop :=
  (∃ msg, (sendAll c s sends)[d.index]? = some msg ∧ Holds d.buf msg) ∧ d.index < r.2 + 32

/-- A message behind those that were taken gives its payload, another one nothing. -/
def Restores (r : Crypt × ℕ) (d : Delivery) : Prop :=
  ∀ buf p, sends[d.index]? = some (buf, p) →
    if r.2 ≤ d.index then
      (eadDecryptMessage c r.1 d.buf).2.2.toInt = p.length ∧
        payloadOf (eadDecryptMessage c r.1 d.buf).2.1 p.length = p
    else (eadDecryptMessage c r.1 d.buf).2.2.toInt ≤ 0

theorem sendAll_getElem {s : Crypt} {sends : List (EadMsg × List Byte)} {i : ℕ} {buf : EadMsg}
    {p : List Byte} (h : sends[i]? = some (buf, p)) :
    (sendAll c s sends)[i]? = some
      (eadEncryptMessage c (eadGetTxIv^[i] s) (place buf p) (BitVec.ofNat 32 p.length)).2 := by
  induction sends generalizing s i with
  | nil => cases h
  | cons x sends ih =>
    obtain ⟨buf', p'⟩ := x
    cases i with
    | zero =>
      cases h
      rfl
    | succ i => exact ih h

theorem sendAll_length (s : Crypt) (sends : List (EadMsg × List Byte)) :
    (sendAll c s sends).length = sends.length := by
  induction sends generalizing s with
  | nil => rfl
  | cons x sends ih => exact congrArg Nat.succ (ih _)

theorem eadGetTxIv_key (s : Crypt) (i : ℕ) : (eadGetTxIv^[i] s).key = s.key := by
  induction i with
  | zero => rfl
  | succ i ih =>
    rw [Function.iterate_succ_apply']
    exact ih

/-- Message number i holds its payload, under the counter after i + 1 messages. -/
theorem sendAll_sealed (hinv : ∀ key b, c.rijndaelDecrypt key (c.rijndaelEncrypt key b) = b)
    {i : ℕ} {buf : EadMsg} {p : List Byte} (h : sends[i]? = some (buf, p))
    (hp : p.length + 88 < 2 ^ 31) {msg : EadMsg} (hmsg : (sendAll c s sends)[i]? = some msg) :
    Sealed c s.key msg (eadGetTxIv^[i + 1] s).txIv (fun i => p.getD i 0) p.length := by
  rw [sendAll_getElem c h] at hmsg
  obtain rfl := Option.some.inj hmsg
  have hsealed := eadEncryptMessage_place hinv (eadGetTxIv^[i] s) buf hp
  rw [eadGetTxIv_key] at hsealed
  rw [Function.iterate_succ_apply']
  exact hsealed

/-- The receiver has the key, and its counter is the one of the last message it took. -/
structure InStep (r : Crypt × ℕ) : Prop where
  key : r.1.key = s.key
  counter : r.1.rxIv.toNat = counter s r.2
  bound : r.2 ≤ sends.length

theorem eadCheckRxIv_some {r : Crypt} {iv : BitVec 32} (h : r.rxIv.toNat < iv.toNat)
    (hle : iv.toNat ≤ r.rxIv.toNat + maxIvIncr) (hlt : r.rxIv.toNat + maxIvIncr < 2 ^ 32) :
    eadCheckRxIv r iv = some { r with rxIv := iv } := by
  have hsum : (r.rxIv + BitVec.ofNat 32 maxIvIncr).toNat = r.rxIv.toNat + maxIvIncr := by
    unfold maxIvIncr at *
    rw [BitVec.toNat_add, BitVec.toNat_ofNat]
    omega
  unfold eadCheckRxIv
  rw [if_neg (by rw [BitVec.le_def]; omega), if_neg (by rw [BitVec.lt_def]; omega)]

theorem eadCheckRxIv_none {r : Crypt} {iv : BitVec 32} (h : iv.toNat ≤ r.rxIv.toNat) :
    eadCheckRxIv r iv = none := by
  unfold eadCheckRxIv
  rw [if_pos (BitVec.le_def.mpr h)]

end

section

variable {c : Ciphers} {s : Crypt} {sends : List (EadMsg × List Byte)}
  (hinv : ∀ key b, c.rijndaelDecrypt key (c.rijndaelEncrypt key b) = b)
  (hsize : ∀ x ∈ sends, x.2.length + 88 < 2 ^ 31)
  (hiv : counter s sends.length + maxIvIncr < 2 ^ 32)

include hiv in
/-- A counter of a message lies behind the receiver's and in its window, if the message is
new, and not behind it otherwise. -/
theorem eadCheckRxIv_index {r : Crypt × ℕ} {i : ℕ} (h : InStep s sends r)
    (hi : i < sends.length) (hwindow : i < r.2 + 32) :
    eadCheckRxIv r.1 (eadGetTxIv^[i + 1] s).txIv =
      if r.2 ≤ i then some { r.1 with rxIv := (eadGetTxIv^[i + 1] s).txIv } else none := by
  have hlast : counter s (i + 1) ≤ counter s sends.length := counter_mono s hi
  have htaken := counter_mono s h.bound
  have htoNat := toNat_txIv s (show counter s (i + 1) < 2 ^ 32 by omega)
  split_ifs with hnew
  · obtain ⟨k, hk⟩ := Nat.exists_eq_add_of_le (show r.2 ≤ i + 1 by omega)
    have hsteps := counter_add s r.2 k
    rw [← hk] at hsteps
    have hcounter := h.counter
    refine eadCheckRxIv_some (by omega) ?_ (by omega)
    unfold maxIvIncr
    omega
  · have hold : counter s (i + 1) ≤ counter s r.2 := counter_mono s (by omega)
    exact eadCheckRxIv_none (by rw [htoNat, h.counter]; exact hold)

include hinv hsize hiv in
/-- A delivery in the window keeps the receiver in step and gives the payload if it is new. -/
theorem deliver_inStep {r : Crypt × ℕ} {d : Delivery} (h : InStep s sends r)
    (hd : InWindow c s sends r d) : InStep s sends (deliver c r d) ∧ Restores c sends r d := by
  obtain ⟨⟨msg, hmsg, hbuf⟩, hwindow⟩ := hd
  have hi : d.index < sends.length := by
    rw [← sendAll_length c s sends]
    exact (List.getElem?_eq_some_iff.mp hmsg).1
  obtain ⟨buf, p, hsend⟩ : ∃ buf p, sends[d.index]? = some (buf, p) :=
    ⟨_, _, List.getElem?_eq_getElem hi⟩
  have hsmall : p.length + 88 < 2 ^ 31 := hsize _ (List.mem_of_getElem? hsend)
  have hsealed := (sendAll_sealed c s sends hinv hsend hsmall hmsg).of_holds hbuf
  rw [← h.key] at hsealed
  have hresult := eadDecryptMessage_of_sealed hsealed
  rw [eadCheckRxIv_index hiv h hi hwindow] at hresult
  unfold deliver Restores
  rw [hresult]
  split_ifs with hnew
  · constructor
    · refine ⟨h.key, ?_, ?_⟩
      · have hlast : counter s (d.index + 1) ≤ counter s sends.length := counter_mono s hi
        dsimp only
        rw [toNat_txIv s (by omega), Nat.max_eq_right (by omega)]
      · exact Nat.max_le.mpr ⟨h.bound, hi⟩
    · intro buf' p' hsend'
      cases hsend.symm.trans hsend'
      dsimp only
      refine ⟨?_, payloadOf_eq fun i hi => ?_⟩
      · rw [BitVec.toInt_eq_toNat_of_lt (by rw [BitVec.toNat_ofNat]; omega), BitVec.toNat_ofNat,
          Nat.mod_eq_of_lt (by omega)]
      · dsimp only
        rw [fill_outside _ (by unfold sizeofEncrypted; omega)]
        exact hsealed.bytes i hi
  · constructor
    · refine ⟨h.key, ?_, ?_⟩
      · dsimp only
        rw [Nat.max_eq_left (by omega)]
        exact h.counter
      · exact Nat.max_le.mpr ⟨h.bound, hi⟩
    · intro _ _ _
      exact Int.le_refl 0

end

/-- After both sides set the same key: in a run of deliveries in the window every message
that is new gives its payload, and every other one is refused. -/
theorem channel_restores (c : Ciphers)
    (hinv : ∀ key b, c.rijndaelDecrypt key (c.rijndaelEncrypt key b) = b)
    (host host' : Host) (skey : Mem) (s r : Crypt) (sends : List (EadMsg × List Byte))
    (hsize : ∀ x ∈ sends, x.2.length + 88 < 2 ^ 31)
    (hiv : counter (eadSetKey host skey s) sends.length + maxIvIncr < 2 ^ 32)
    (ds : List Delivery)
    (hds : Every (deliver c) (InWindow c (eadSetKey host skey s) sends)
      (eadSetKey host' skey r, 0) ds) :
    Every (deliver c) (Restores c sends) (eadSetKey host' skey r, 0) ds := by
  have hstart : InStep (eadSetKey host skey s) sends (eadSetKey host' skey r, 0) :=
    ⟨rfl, rfl, Nat.zero_le _⟩
  exact every_of_good (fun r d h hd => (deliver_inStep hinv hsize hiv h hd).1)
    (fun r d h hd => (deliver_inStep hinv hsize hiv h hd).2) ds hstart hds

/-- Ciphers that leave the blocks alone. -/
def clear : Ciphers where
  rijndaelEncrypt _ b := b
  rijndaelDecrypt _ b := b
  shaInit _ := 0
  shaTransform d _ := d

def zeroCrypt : Crypt := ⟨fun _ => 0, 0, 0, 0, ⟨0, Nat.succ_pos 15⟩⟩

def zeroMsg : EadMsg := ⟨0, 0, 0, 0, 0, fun _ => 0⟩

def twoPayloads : List (EadMsg × List Byte) := [(zeroMsg, [1]), (zeroMsg, [2, 3])]

def twoMessages : List EadMsg := sendAll clear (eadSetKey .little (fun _ => 1) zeroCrypt) twoPayloads

/-- The second of two messages, and then the first one. -/
theorem channel_restores_two :
    Every (deliver clear) (Restores clear twoPayloads) (eadSetKey .big (fun _ => 1) zeroCrypt, 0)
      [⟨1, twoMessages.getD 1 zeroMsg⟩, ⟨0, twoMessages.getD 0 zeroMsg⟩] := by
  refine channel_restores clear (fun _ _ => rfl) .little .big (fun _ => 1) zeroCrypt zeroCrypt _
    (fun x hx => ?_) (by decide) _
    ⟨⟨⟨twoMessages.getD 1 zeroMsg, rfl, rfl, fun _ _ => rfl⟩, by simp⟩,
      ⟨⟨twoMessages.getD 0 zeroMsg, rfl, rfl, fun _ _ => rfl⟩, by simp⟩, trivial⟩
  rcases List.mem_cons.mp hx with rfl | hx
  · decide
  · cases List.mem_singleton.mp hx
    decide

variable (c : Ciphers) (s : Crypt) (msg : EadMsg)

/-- A message that is not taken leaves the window, and with it what later messages give. -/
def KeepsWindow : Prop :=
  let r := eadDecryptMessage c s msg
  ¬0 < r.2.2.toInt →
    r.1.rxIv = s.rxIv ∧ ∀ next, eadDecryptMessage c r.1 next = eadDecryptMessage c s next

/-- The message comes as far as the check of its counter, and the counter is new. -/
structure MovesWindow : Prop where
  length : ¬(msg.len = 0 ∨ 0 < msg.len.toInt.tmod encPad)
  pad : (opened c s.key msg padOfs).toNat < encPad
  fresh : eadCheckRxIv s (loadIv (opened c s.key msg)) ≠ none

/-- The hash is right, and the padding leaves some payload. -/
structure Taken : Prop where
  hash : ∀ i, loadDigest (opened c s.key msg) i =
    (eadHashMessage c (opened c s.key msg) msg.len).1 i
  payload : 0 < (msg.len - BitVec.ofNat 32
    ((opened c s.key msg padOfs).toNat + sizeofEncrypted)).toInt

variable {c s msg}

theorem eadCheckRxIv_eq {s' : Crypt} {iv : BitVec 32} (h : eadCheckRxIv s iv = some s') :
    s' = { s with rxIv := iv } ∧ s.rxIv < iv := by
  unfold eadCheckRxIv at h
  split at h
  · cases h
  · next hle =>
    split at h
    · cases h
    · exact ⟨(Option.some.inj h).symm, BitVec.not_le.mp hle⟩

/-- A message that does not come as far as the counter, or has an old one. -/
theorem eadDecryptMessage_stays (h : ¬MovesWindow c s msg) :
    (eadDecryptMessage c s msg).1 = s ∧ (eadDecryptMessage c s msg).2.2 = 0 := by
  unfold eadDecryptMessage
  split
  · exact ⟨rfl, rfl⟩
  · next hlength =>
    dsimp only
    rw [← opened]
    split
    · exact ⟨rfl, rfl⟩
    · next hpad =>
      cases hfresh : eadCheckRxIv s (loadIv (opened c s.key msg)) with
      | none => exact ⟨rfl, rfl⟩
      | some s' =>
        refine absurd ⟨hlength, Nat.lt_of_not_le hpad, ?_⟩ h
        rw [hfresh]
        exact Option.some_ne_none s'

theorem eadDecryptMessage_fresh (h : MovesWindow c s msg) :
    (eadDecryptMessage c s msg).1 = { s with rxIv := loadIv (opened c s.key msg) } ∧
      s.rxIv < loadIv (opened c s.key msg) ∧
      (eadDecryptMessage c s msg).2.2 =
        if ∀ i, loadDigest (opened c s.key msg) i =
            (eadHashMessage c (opened c s.key msg) msg.len).1 i then
          msg.len - BitVec.ofNat 32 ((opened c s.key msg padOfs).toNat + sizeofEncrypted)
        else 0 := by
  obtain ⟨s', hs'⟩ := Option.ne_none_iff_exists'.mp h.fresh
  obtain ⟨rfl, hlt⟩ := eadCheckRxIv_eq hs'
  unfold eadDecryptMessage
  rw [if_neg h.length]
  dsimp only
  rw [← opened, if_neg (Nat.not_le.mpr h.pad), hs']
  dsimp only
  split
  · exact ⟨rfl, hlt, rfl⟩
  · exact ⟨rfl, hlt, rfl⟩

theorem eadDecryptMessage_moves (h : MovesWindow c s msg) :
    (eadDecryptMessage c s msg).1 = { s with rxIv := loadIv (opened c s.key msg) } ∧
      s.rxIv < loadIv (opened c s.key msg) ∧
      (0 < (eadDecryptMessage c s msg).2.2.toInt ↔ Taken c s msg) := by
  obtain ⟨hstate, hlt, hret⟩ := eadDecryptMessage_fresh h
  refine ⟨hstate, hlt, ?_⟩
  rw [hret]
  split
  · next hhash => exact ⟨fun hpos => ⟨hhash, hpos⟩, Taken.payload⟩
  · next hhash => exact ⟨fun hpos => (Int.lt_irrefl 0 hpos).elim, fun ht => absurd ht.hash hhash⟩

/-- A message of the other side that was changed behind its counter: it is refused, and then
the message itself is refused too. -/
theorem tampered_message_lost {iv : BitVec 32} {payload : Mem} {n : ℕ}
    (h : Sealed c s.key msg iv payload n) (hfresh : eadCheckRxIv s iv ≠ none) {buf : EadMsg}
    (hlen : buf.len = msg.len) (hfront : ∀ x, x < 32 → buf.data x = msg.data x)
    (hhash : ¬∀ i, loadDigest (opened c s.key buf) i =
      (eadHashMessage c (opened c s.key buf) buf.len).1 i) :
    ¬0 < (eadDecryptMessage c s buf).2.2.toInt ∧
      (eadDecryptMessage c (eadDecryptMessage c s buf).1 msg).2.2 = 0 := by
  have hsize := h.size
  unfold sizeofEncrypted at hsize
  have hblocks := h.blocks
  unfold encPad at hblocks
  obtain ⟨hrounds, -⟩ := rounds_message h.small h.blocks
  have hopened : ∀ x, x < 32 → opened c s.key buf x = opened c s.key msg x := by
    intro x hx
    unfold opened
    rw [hlen, Mem.mapBlocks_low _ (by omega : 2 ≤ rounds 16 msg.len) hx,
      Mem.mapBlocks_low _ (by omega : 2 ≤ rounds 16 msg.len) hx]
    exact Mem.mapBlocks_congr hfront hx
  have hiv : loadIv (opened c s.key buf) = iv := by
    rw [← h.counter]
    exact loadIv_congr fun x _ hx => hopened x (by unfold padOfs at hx; omega)
  have hmoves : MovesWindow c s buf := by
    refine ⟨?_, ?_, by rw [hiv]; exact hfresh⟩
    · rw [hlen, BitVec.toInt_eq_toNat_of_lt (by have := h.small; omega), ← Int.ofNat_tmod, h.blocks]
      rintro (hzero | hpos)
      · rw [hzero, show (0 : BitVec 32).toNat = 0 from rfl] at hsize
        omega
      · exact Int.lt_irrefl 0 hpos
    · rw [hopened padOfs (by unfold padOfs; omega)]
      exact h.pad
  obtain ⟨hstate, -, hpos⟩ := eadDecryptMessage_moves hmoves
  refine ⟨fun hp => hhash (hpos.mp hp).hash, ?_⟩
  rw [hstate, hiv, eadDecryptMessage_of_sealed (s := { s with rxIv := iv }) h,
    eadCheckRxIv_none (Nat.le_refl _)]

/-- The window stays where it is for messages that are not taken, except for those with a
new counter. -/
theorem rejected_keeps_window_iff (c : Ciphers) (s : Crypt) (msg : EadMsg) :
    KeepsWindow c s msg ↔ (MovesWindow c s msg → Taken c s msg) := by
  by_cases hmoves : MovesWindow c s msg
  · obtain ⟨hstate, hlt, hpos⟩ := eadDecryptMessage_moves hmoves
    refine ⟨fun h _ => ?_, fun h hno => absurd (hpos.mpr (h hmoves)) hno⟩
    by_contra htaken
    have hkept := (h fun hp => htaken (hpos.mp hp)).1
    rw [hstate] at hkept
    exact absurd hlt (by rw [← hkept]; exact BitVec.lt_irrefl _)
  · obtain ⟨hstate, -⟩ := eadDecryptMessage_stays hmoves
    refine iff_of_true (fun _ => ?_) (fun h => absurd h hmoves)
    rw [hstate]
    exact ⟨rfl, fun _ => rfl⟩

/-- Ciphers that leave the blocks alone, with a hash that adds up one byte of each block. -/
def adding : Ciphers where
  rijndaelEncrypt _ b := b
  rijndaelDecrypt _ b := b
  shaInit _ := 0
  shaTransform d b i := d i + (b 40).toBitVec.setWidth 32

/-- The first message with one byte of payload, its byte 40 changed. -/
def changedMsg : EadMsg :=
  let msg := (eadEncryptMessage adding zeroCrypt (place zeroMsg [1]) 1).2
  { msg with data := Function.update msg.data 40 1 }

theorem changed_message_lost : ¬0 < (eadDecryptMessage adding zeroCrypt changedMsg).2.2.toInt ∧
    (eadDecryptMessage adding (eadDecryptMessage adding zeroCrypt changedMsg).1
      (eadEncryptMessage adding zeroCrypt (place zeroMsg [1]) 1).2).2.2 = 0 :=
  tampered_message_lost (eadEncryptMessage_place (fun _ _ => rfl) zeroCrypt zeroMsg (by decide))
    (by decide +kernel) rfl (fun _ hx => Function.update_of_ne (by omega) _ _) (by decide +kernel)

theorem changed_message_moves_window : ¬KeepsWindow adding zeroCrypt changedMsg := by
  intro h
  have hkept := (h (by decide +kernel)).1
  revert hkept
  decide +kernel

end Iot7688.EadCrypt
