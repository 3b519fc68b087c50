import Iot7688.Ead

/-!
The SRP library behind a login, t_client.c and t_server.c. Big integers are natural numbers and
a hash context is what was put into it; SHA is given from outside, and allocations succeed.
Both sides compute modulo n, which nothing here takes to be prime.
-/
namespace Iot7688.EadSrp

open Lib

/-- BigIntegerFromBytes, and BigIntegerToBytes, which writes no zeros in front. -/
def fromBytes (bytes : List Byte) : ℕ := Nat.ofDigits 256 (bytes.reverse.map UInt8.toNat)

def toBytes (n : ℕ) : List Byte := ((Nat.digits 256 n).map UInt8.ofNat).reverse

/-- BigIntegerModExp and BigIntegerModMul. -/
def modExp (b e m : ℕ) : ℕ := b ^ e % m

def modMul (a b m : ℕ) : ℕ := a * b % m

/-- B from a power of g, and back; v is less than n. -/
def blind (n x v : ℕ) : ℕ := if n < x + v then x + v - n else x + v

def unblind (n B v : ℕ) : ℕ := (if B < v then B + n else B) - v

/-- ALEN and BLEN. -/
def expLen : ℕ := 32

structure Client where
  (n g username s a A p v hash ckhash sessionKey sessionResponse : List Byte)

structure Server where
  (n g v s b B hash ckhash oldhash oldckhash sessionKey sessionResponse : List Byte)

/-- What prepare_password leaves in tpe, tce and pw_saltbuf. -/
structure Entry where
  index : Byte
  (modulus generator salt password extSalt : List Byte)

section

variable (sha : List Byte → List Byte)

/-- What both sides hash first. -/
def opening (n g name salt : List Byte) : List Byte :=
  List.zipWith (· ^^^ ·) (sha n) (sha g) ++ sha name ++ salt

/-- The secret number of a password. -/
def passwordNumber (name password salt : List Byte) : ℕ :=
  fromBytes (sha (salt ++ sha (name ++ 0x3a :: password)))

/-- u, from the bytes of B. -/
def scrambler (bytes : List Byte) : ℕ := fromBytes ((sha bytes).take 4)

/-- t_sessionkey: the hashes of every other byte from the last one on, in turn. -/
def tSessionkey (sk : List Byte) : List Byte :=
  let sk := sk.dropWhile (· == 0)
  let every k := (List.range (sk.length / 2)).map fun i => sk.getD (sk.length - 2 * i - k) 0
  (List.zip (sha (every 1)) (sha (every 2))).flatMap fun x => [x.1, x.2]

/-- What t_clientopen returns for a modulus and a generator that it knows. -/
def tClientopen (u n g s : List Byte) : Client :=
  ⟨n, g, u, s, [], [], [], [], opening sha n g u s, [], [], []⟩

def tClientgenexp (random : List Byte) (tc : Client) : Client :=
  let a := random.take (min tc.n.length expLen)
  let A := toBytes (modExp (fromBytes tc.g) (fromBytes a) (fromBytes tc.n))
  { tc with a, A, hash := tc.hash ++ A, ckhash := tc.ckhash ++ A }

def tClientpasswd (password : List Byte) (tc : Client) : Client :=
  let p := passwordNumber sha tc.username password tc.s
  { tc with p := toBytes p, v := toBytes (modExp (fromBytes tc.g) p (fromBytes tc.n)) }

def Client.keyed (tc : Client) (serverval key : List Byte) : Client :=
  let hash := tc.hash ++ serverval ++ key
  { tc with
    hash, sessionKey := key, sessionResponse := sha hash
    ckhash := tc.ckhash ++ sha hash ++ key }

def tClientgetkey (serverval : List Byte) (tc : Client) : Option Client :=
  let u := scrambler sha serverval
  let B := fromBytes serverval
  let n := fromBytes tc.n
  if u = 0 ∨ n ≤ B ∨ B = 0 then none
  else
    let S := modExp (unblind n B (fromBytes tc.v)) (fromBytes tc.p * u + fromBytes tc.a) n
    some (tc.keyed sha serverval (tSessionkey sha (toBytes S)))

/-- t_clientverify returns 0. -/
def tClientverify (resp : List Byte) (tc : Client) : Prop := sha tc.ckhash = resp

def tServeropenraw (ent : Entry) (name : List Byte) : Server :=
  let ckhash := opening sha ent.modulus ent.generator name ent.salt
  ⟨ent.modulus, ent.generator, ent.password, ent.salt, [], [], [], ckhash, [], [], [], []⟩

def tServergenexp (random : List Byte) (ts : Server) : Server × List Byte :=
  let b := random.take (min ts.n.length expLen)
  let x := modExp (fromBytes ts.g) (fromBytes b) (fromBytes ts.n)
  let B := toBytes (blind (fromBytes ts.n) x (fromBytes ts.v))
  ({ ts with b, B, oldckhash := ts.oldckhash ++ B }, B)

def Server.received (ts : Server) (clientval : List Byte) : Server :=
  { ts with
    ckhash := ts.ckhash ++ clientval ++ ts.B
    oldhash := ts.oldhash ++ clientval, hash := ts.hash ++ clientval }

def Server.keyed (ts : Server) (key : List Byte) : Server :=
  { ts with
    sessionKey := key, oldhash := ts.oldhash ++ key, oldckhash := ts.oldckhash ++ key
    ckhash := ts.ckhash ++ key }

def tServergetkey (ts : Server) (clientval : List Byte) : Server × Option Mem :=
  let n := fromBytes ts.n
  let res := modMul (modExp (fromBytes ts.v) (scrambler sha ts.B) n) (fromBytes clientval) n
  if res ≤ 1 ∨ res + 1 = n then (ts.received clientval, none)
  else
    let key := tSessionkey sha (toBytes (modExp res (fromBytes ts.b) n))
    ((ts.received clientval).keyed key, some fun i => key.getD i 0)

/-- The hash of an older protocol is tried first. -/
def tSerververify (ts : Server) (resp : List Byte) : Server × ℤ :=
  if sha ts.oldckhash = resp then ({ ts with sessionResponse := sha ts.oldhash }, 0)
  else if sha ts.ckhash = resp then
    let hash := ts.hash ++ resp ++ ts.sessionKey
    ({ ts with hash, sessionResponse := sha hash }, 0)
  else (ts, 1)

/-- hash_password of prepare_password. -/
def hashPassword (name password : List Byte) (ent : Entry) : Entry :=
  let x := passwordNumber sha name password ent.salt
  { ent with password := toBytes (modExp (fromBytes ent.generator) x (fromBytes ent.modulus)) }

/-- The library of the daemon. -/
def tinysrp : Ead.Srp where
  Entry := Entry
  Server := Server
  prime := Entry.index
  extSalt := Entry.extSalt
  serverOpenRaw := tServeropenraw sha
  salt := Server.s
  serverGenExp := tServergenexp
  serverGetKey := tServergetkey sha
  serverVerify := tSerververify sha
  serverResponse := Server.sessionResponse

end

/-- A login over a channel that changes nothing. -/
structure Login where
  entry : Entry
  (name password clientRandom serverRandom : List Byte)
  big : 1 < fromBytes entry.modulus

namespace Login

variable (sha : List Byte → List Byte) (l : Login)

def client : Client :=
  tClientpasswd sha l.password (tClientgenexp l.clientRandom
    (tClientopen sha l.name l.entry.modulus l.entry.generator l.entry.salt))

def server : Server :=
  ((tinysrp sha).serverGenExp l.serverRandom
    ((tinysrp sha).serverOpenRaw (hashPassword sha l.name l.password l.entry) l.name)).1

def clientKey : Option Client := tClientgetkey sha (l.server sha).B (l.client sha)

def serverKey : Server × Option Mem :=
  (tinysrp sha).serverGetKey (l.server sha) (l.client sha).A

/-- The numbers of the login. -/
def n : ℕ := fromBytes l.entry.modulus
def g : ℕ := fromBytes l.entry.generator
def p : ℕ := passwordNumber sha l.name l.password l.entry.salt
def u : ℕ := scrambler sha (l.server sha).B

/-- What v is added to in B, v, and the exponent that both sides can apply. -/
def hidden : ℕ := modExp l.g (fromBytes (l.server sha).b) l.n
def v : ℕ := modExp l.g (l.p sha) l.n
def exponent : ℕ := l.p sha * l.u sha + fromBytes (l.client sha).a

/-- Who gets no key; otherwise the keys are the same and the proofs are good, but for the
answer when the hash of the older protocol is the client's proof. -/
structure Agrees : Prop where
  client : l.clientKey sha = none ↔
    l.u sha = 0 ∨ l.hidden sha + l.v sha = l.n ∨ l.hidden sha + l.v sha = 0
  server : (l.serverKey sha).2 = none ↔
    modExp l.g (l.exponent sha) l.n ≤ 1 ∨ modExp l.g (l.exponent sha) l.n + 1 = l.n
  proofs : ∀ tc ∈ l.clientKey sha, (l.serverKey sha).2 ≠ none →
    let ts := (l.serverKey sha).1
    let r := (tinysrp sha).serverVerify ts tc.sessionResponse
    tc.sessionKey = ts.sessionKey ∧ r.2 = 0 ∧ (sha ts.oldckhash ≠ tc.sessionResponse →
      tClientverify sha ((tinysrp sha).serverResponse r.1) tc)

end Login

theorem tSerververify_of_ckhash (sha : List Byte → List Byte) (ts : Server) {resp : List Byte}
    (h : sha ts.ckhash = resp) : (tSerververify sha ts resp).2 = 0 ∧
      (sha ts.oldckhash ≠ resp → (tSerververify sha ts resp).1.sessionResponse =
        sha (ts.hash ++ resp ++ ts.sessionKey)) := by
  unfold tSerververify
  split
  · exact ⟨rfl, fun hne => absurd ‹_› hne⟩
  · exact ⟨rfl, fun _ => rfl⟩

theorem fromBytes_toBytes (n : ℕ) : fromBytes (toBytes n) = n := by
  have hdigits : (Nat.digits 256 n).map (UInt8.toNat ∘ UInt8.ofNat) = Nat.digits 256 n := by
    refine (List.map_congr_left fun d hd => ?_).trans (List.map_id _)
    exact Nat.mod_eq_of_lt (Nat.digits_lt_base (by omega) hd)
  unfold fromBytes toBytes
  rw [List.reverse_reverse, List.map_map, hdigits, Nat.ofDigits_digits]

theorem modMul_modExp (n g a p u : ℕ) :
    modMul (modExp (modExp g p n) u n) (modExp g a n) n = modExp g (p * u + a) n := by
  unfold modMul modExp
  rw [← Nat.pow_mod, ← Nat.mul_mod, ← pow_mul, ← pow_add]

theorem modExp_comm (n g b e : ℕ) : modExp (modExp g e n) b n = modExp (modExp g b n) e n := by
  unfold modExp
  rw [← Nat.pow_mod, ← Nat.pow_mod, ← pow_mul, ← pow_mul, Nat.mul_comm]

theorem unblind_blind {n x v : ℕ} (hx : x < n) (hv : v < n) : unblind n (blind n x v) v = x := by
  unfold unblind blind
  split <;> split <;> omega

theorem blind_cases {n x v : ℕ} (hx : x < n) (hv : v < n) :
    (n ≤ blind n x v ↔ x + v = n) ∧ (blind n x v = 0 ↔ x + v = 0) := by
  unfold blind
  split <;> omega

namespace Login

variable (sha : List Byte → List Byte) (l : Login)

/-- The session key of both sides, when they have one. -/
def key : List Byte := tSessionkey sha (toBytes (modExp (l.hidden sha) (l.exponent sha) l.n))

theorem clientKey_eq : l.clientKey sha =
    if l.u sha = 0 ∨ l.hidden sha + l.v sha = l.n ∨ l.hidden sha + l.v sha = 0 then none
    else some ((l.client sha).keyed sha (l.server sha).B (l.key sha)) := by
  have hx : l.hidden sha < l.n := Nat.mod_lt _ (Nat.zero_lt_of_lt l.big)
  have hv : l.v sha < l.n := Nat.mod_lt _ (Nat.zero_lt_of_lt l.big)
  have hpasswd : fromBytes (l.client sha).v = l.v sha := fromBytes_toBytes _
  have hp : fromBytes (l.client sha).p = l.p sha := fromBytes_toBytes _
  have hB : fromBytes (l.server sha).B = blind l.n (l.hidden sha) (l.v sha) := by
    rw [← hpasswd]
    exact fromBytes_toBytes _
  have hn : fromBytes (l.client sha).n = l.n := rfl
  obtain ⟨hle, hzero⟩ := blind_cases hx hv
  simp only [clientKey, tClientgetkey, hB, hn, hle, hzero, hpasswd, unblind_blind hx hv, hp]
  rfl

/-- A v^u is the power of g, and the keys come from the same number. -/
theorem serverKey_eq : l.serverKey sha =
    let r := modExp l.g (l.exponent sha) l.n
    let ts := (l.server sha).received (l.client sha).A
    if r ≤ 1 ∨ r + 1 = l.n then (ts, none)
    else (ts.keyed (l.key sha), some fun i => (l.key sha).getD i 0) := by
  have hv : fromBytes (l.server sha).v = modExp l.g (l.p sha) l.n := fromBytes_toBytes _
  have hA : fromBytes (l.client sha).A = modExp l.g (fromBytes (l.client sha).a) l.n :=
    fromBytes_toBytes _
  have hn : fromBytes (l.server sha).n = l.n := rfl
  simp only [key, hidden, modExp_comm l.n l.g (fromBytes (l.server sha).b), serverKey,
    tinysrp, tServergetkey, hv, hA, hn, modMul_modExp]
  rfl

end Login

end Iot7688.EadSrp
