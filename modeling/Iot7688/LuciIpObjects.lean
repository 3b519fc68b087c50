import Iot7688.LuciIp
import Iot7688.Lib.Run

/-!
The objects that Lua gets. Every function but mask and mapped4 sets all fields, and the
sizes are in bounds as long as no size in a text is so large that it becomes a negative
int.
-/
namespace Iot7688.LuciIp

open Lib

/-- An IPv4 object with at most 32 bits, or an IPv6 object with at most 128. -/
def ObjectOk (c : Cidr) : Prop :=
  c.family = .inet ∧ c.len = 4 ∧ 0 ≤ c.bits ∧ c.bits ≤ 32 ∨
    c.family = .inet6 ∧ c.len = 16 ∧ 0 ≤ c.bits ∧ c.bits ≤ 128

/-- sizeof of the address of a family. -/
def lenOf : Family → ℤ
  | .inet => sizeofV4
  | .inet6 => sizeofV6

/-- The text is a number that does not fit into an int. -/
def Wraps (mask : List Byte) : Prop := (strtoul 10 mask).2 = [] ∧ 2 ^ 31 ≤ (strtoul 10 mask).1

/-- Neither a text nor what follows a slash in it is such a number. -/
def TextOk (garbage s : List Byte) : Prop :=
  ¬Wraps s ∧ ∀ p, (splitSlash (cidrBuf garbage s)).2 = some p → ¬Wraps p

/-- The texts are good, and new userdata for mask and mapped4 happens to have the right
length. -/
structure Call.Good (inet : Inet) (heap : List Cidr) (c : Call) : Prop where
  texts : ∀ s, Value.string s ∈ c.args → TextOk c.garbage s
  mask : ∀ p, c.fn = .mask →
    checkcidr ⟨inet, c.garbage, c.fresh⟩ heap (c.args.map .inl) 1 none = some p →
      c.fresh.len = lenOf p.val.family
  mapped4 : c.fn = .mapped4 → c.fresh.len = sizeofV4

theorem toInt_of_lt {n : ℕ} (h : n < 2 ^ 31) : toInt n = n := by
  have hmod : n % 2 ^ 32 = n := Nat.mod_eq_of_lt (by omega)
  have htoNat : (BitVec.ofNat 32 n).toNat = n := by rw [BitVec.toNat_ofNat, hmod]
  unfold toInt
  rw [BitVec.toInt_eq_toNat_of_lt (by omega), htoNat]

theorem leadingOnes_le (bit : ℕ → Bool) (fuel n : ℕ) : leadingOnes bit fuel n ≤ n + fuel := by
  induction fuel generalizing n with
  | zero => exact le_refl n
  | succ fuel ih =>
    unfold leadingOnes
    split
    · have := ih (n + 1)
      omega
    · omega

/-- A number of bits that a family has. -/
def BitsOk (family : Family) (bits : ℤ) : Prop := 0 ≤ bits ∧ bits ≤ family.bits

theorem leadingOnes_ok {family : Family} (bit : ℕ → Bool) {fuel : ℕ} (h : fuel = family.bits) :
    BitsOk family (leadingOnes bit fuel 0) := by
  have hle := leadingOnes_le bit fuel 0
  constructor
  · exact Int.natCast_nonneg _
  · rw [Nat.zero_add, h] at hle
    rw [h]
    exact_mod_cast hle

theorem parseMask_ok {inet : Inet} {family : Family} {mask : List Byte} {bits : ℤ}
    (hwraps : ¬Wraps mask) (h : parseMask inet family mask = some bits) : BitsOk family bits := by
  unfold parseMask at h
  split at h
  · obtain rfl := Option.some.inj h
    exact leadingOnes_ok _ rfl
  · obtain rfl := Option.some.inj h
    exact leadingOnes_ok _ rfl
  · dsimp only at h
    split_ifs at h with hbad
    obtain ⟨-, hrest, hle⟩ : _ ∧ _ ∧ _ := by simpa only [not_or] using hbad
    obtain rfl := Option.some.inj h
    have hlt : (strtoul 10 mask).1 < 2 ^ 31 := by
      by_contra hge
      exact hwraps ⟨not_not.mp hrest, Nat.le_of_not_lt hge⟩
    refine ⟨?_, Int.not_lt.mp hle⟩
    rw [toInt_of_lt hlt]
    exact Int.natCast_nonneg _

theorem objectOk_iff (c : Cidr) : ObjectOk c ↔ c.len = lenOf c.family ∧ BitsOk c.family c.bits := by
  unfold ObjectOk BitsOk
  cases c.family <;> simp [lenOf, sizeofV4, sizeofV6, Family.bits]

theorem bitsOk_hostBits (p : Cidr) : BitsOk p.family (hostBits p) :=
  ⟨Int.natCast_nonneg _, Int.le_refl _⟩

theorem objectOk_v4 (addr : Mem) : ObjectOk ⟨addr, sizeofV4, 32, .inet⟩ := by
  simp [ObjectOk, sizeofV4]

theorem objectOk_v6 (addr : Mem) : ObjectOk ⟨addr, sizeofV6, 128, .inet6⟩ := by
  simp [ObjectOk, sizeofV6]

/-- The address in front of a slash, with all bits. -/
theorem objectOk_addr (env : Env) (s : List Byte) :
    ∀ c, (match env.inet.pton4 s, env.inet.pton6 s with
      | some addr, _ => some (Cidr.mk addr sizeofV4 32 .inet)
      | none, some addr => some ⟨addr, sizeofV6, 128, .inet6⟩
      | none, none => none) = some c → ObjectOk c := by
  intro c h
  split at h
  · obtain rfl := Option.some.inj h
    exact objectOk_v4 _
  · obtain rfl := Option.some.inj h
    exact objectOk_v6 _
  · cases h

theorem parseCidr_ok {env : Env} {dest : List Byte} {c : Cidr} (htext : TextOk env.garbage dest)
    (h : parseCidr env dest = some c) : ObjectOk c := by
  unfold parseCidr at h
  dsimp only at h
  have haddr := objectOk_addr env (splitSlash (cidrBuf env.garbage dest)).1
  split at h
  · cases h
  · obtain ⟨bits, hbits, rfl⟩ := Option.map_eq_some_iff.mp h
    rename_i pp p hpp hp
    rw [objectOk_iff]
    exact ⟨((objectOk_iff pp).mp (haddr pp hpp)).1, parseMask_ok (htext.2 p hp) hbits⟩
  · obtain rfl := Option.some.inj h
    exact haddr _ ‹_›

/-- The texts on the stack are good, and so are the objects that a function pushed. -/
structure StackOk (garbage : List Byte) (stack : Stack) : Prop where
  texts : ∀ s, .inl (.string s) ∈ stack → TextOk garbage s
  objects : ∀ c, .inr c ∈ stack → ObjectOk c

section

variable {env : Env} {heap : List Cidr} {stack : Stack}

theorem valueAt_mem {index : ℕ} {v : Value ⊕ Cidr} (h : valueAt stack index = some v) :
    v ∈ stack :=
  List.mem_of_getElem? h

theorem StackOk.push (h : StackOk env.garbage stack) {c : Cidr} (hc : ObjectOk c) :
    StackOk env.garbage (stack ++ [.inr c]) := by
  constructor
  · intro s hs
    rcases List.mem_append.mp hs with hold | hnew
    · exact h.texts s hold
    · cases List.mem_singleton.mp hnew
  · intro d hd
    rcases List.mem_append.mp hd with hold | hnew
    · exact h.objects d hold
    · cases List.mem_singleton.mp hnew
      exact hc

theorem checkbits_ok {inet : Inet} {garbage : List Byte} {index : ℕ} {p : Cidr} {bits : ℤ}
    (hstack : StackOk garbage stack) (hp : BitsOk p.family p.bits)
    (h : checkbits inet stack index p = some bits) : BitsOk p.family bits := by
  unfold checkbits at h
  split at h
  · obtain rfl := Option.some.inj h
    exact hp
  · obtain rfl := Option.some.inj h
    exact hp
  · split_ifs at h with hbad
    obtain rfl := Option.some.inj h
    exact ⟨Int.not_lt.mp fun hneg => hbad (.inl hneg), Int.not_lt.mp fun hbig => hbad (.inr hbig)⟩
  · rename_i s hs
    exact parseMask_ok (hstack.texts s (valueAt_mem hs)).1 h
  · cases h

theorem cidrNew_ok {index : ℕ} {family : Option Family} {mask : Bool} {c : Cidr}
    (hstack : StackOk env.garbage stack) (h : cidrNew env stack index family mask = .object c) :
    ObjectOk c := by
  unfold cidrNew at h
  split at h
  · dsimp only at h
    split at h
    · obtain rfl := New.object.inj h
      exact objectOk_v6 _
    · obtain rfl := New.object.inj h
      exact objectOk_v4 _
  · rename_i addr haddr
    split at h
    · cases h
    · rename_i cidr hcidr
      have hok := parseCidr_ok (hstack.texts addr (valueAt_mem haddr)) hcidr
      have hparts := (objectOk_iff cidr).mp hok
      split_ifs at h with hfamily hmask
      · split at h
        · cases h
        · rename_i bits hbits
          obtain rfl := New.object.inj h
          have hnew := checkbits_ok hstack hparts.2 hbits
          rw [objectOk_iff]
          exact ⟨hparts.1, hnew⟩
      · obtain rfl := New.object.inj h
        exact hok
  · cases h

/-- An operand is a good object, and the stack stays good. -/
theorem checkcidr_ok {index : ℕ} {p : Option Cidr} {o : Operand}
    (hheap : ∀ c ∈ heap, ObjectOk c) (hstack : StackOk env.garbage stack)
    (h : checkcidr env heap stack index p = some o) :
    ObjectOk o.val ∧ StackOk env.garbage o.stack := by
  unfold checkcidr at h
  split at h
  · obtain ⟨c, hc, rfl⟩ := Option.map_eq_some_iff.mp h
    exact ⟨hheap c (List.mem_of_getElem? hc), hstack⟩
  · rename_i c hc
    obtain rfl := Option.some.inj h
    exact ⟨hstack.objects c (valueAt_mem hc), hstack⟩
  · split at h
    · rename_i c hc
      obtain rfl := Option.some.inj h
      have hok := cidrNew_ok hstack hc
      exact ⟨hok, hstack.push hok⟩
    · cases h

end

/-- A mask changes the address only. -/
theorem applyMask_fields {p q : Cidr} {bits : ℤ} {inv : Bool} (h : applyMask p bits inv = some q) :
    q.len = p.len ∧ q.bits = p.bits ∧ q.family = p.family := by
  unfold applyMask at h
  split at h
  · split at h
    · obtain rfl := Option.some.inj h
      exact ⟨rfl, rfl, rfl⟩
    · cases h
  · split at h <;> split at h <;> obtain rfl := Option.some.inj h <;> exact ⟨rfl, rfl, rfl⟩

theorem applyMask_ok {p q : Cidr} {bits : ℤ} {inv : Bool} (hp : ObjectOk p)
    (h : applyMask p bits inv = some q) : ObjectOk q := by
  obtain ⟨hlen, hbits, hfamily⟩ := applyMask_fields h
  unfold ObjectOk
  rw [hlen, hbits, hfamily]
  exact hp

/-- The objects after a call are good. -/
def Ret.Ok (r : Ret) : Prop :=
  ∀ heap new, r = .returns heap new → ∀ c ∈ heap ++ new.toList, ObjectOk c

section

variable {env : Env} {heap : List Cidr} {stack : Stack}
  (hheap : ∀ c ∈ heap, ObjectOk c) (hstack : StackOk env.garbage stack)

theorem Ret.ok_error : Ret.error.Ok := by
  intro heap new h
  cases h

include hheap in
theorem Ret.ok_returns {new : Option Cidr} (hnew : ∀ c, new = some c → ObjectOk c) :
    (Ret.returns heap new).Ok := by
  intro heap' new' h c hc
  cases h
  rcases List.mem_append.mp hc with hold | hc
  · exact hheap c hold
  · exact hnew c (Option.mem_toList.mp hc)

include hheap in
theorem Ret.ok_ofNew {new : New} (hnew : ∀ c, new = .object c → ObjectOk c) :
    (Ret.ofNew heap new).Ok := by
  cases new with
  | error => exact Ret.ok_error
  | nothing => exact Ret.ok_returns hheap fun c hc => by cases hc
  | object c => exact Ret.ok_returns hheap fun d hd => by cases hd; exact hnew c rfl

include hheap in
theorem Ret.ok_ofCidr {c : Option Cidr} (hnew : ∀ d, c = some d → ObjectOk d) :
    (Ret.ofCidr heap c).Ok := by
  cases c with
  | none =>
    intro heap new h
    cases h
  | some c => exact Ret.ok_returns hheap hnew

include hheap in
/-- An object of Lua may be replaced by a good one. -/
theorem Ret.ok_set {ref : ℕ} {c : Cidr} (hc : ObjectOk c) :
    (Ret.returns (heap.set ref c) none).Ok := by
  refine Ret.ok_returns (fun d hd => ?_) (fun d hd => by cases hd)
  rcases List.mem_or_eq_of_mem_set hd with hold | rfl
  · exact hheap d hold
  · exact hc

include hheap hstack in
theorem withMask_ok {f : Operand → ℤ → Ret}
    (hf : ∀ p bits, checkcidr env heap stack 1 none = some p → ObjectOk p.val →
      BitsOk p.val.family bits → (f p bits).Ok) : (withMask env heap stack f).Ok := by
  unfold withMask
  split
  · exact Ret.ok_error
  · rename_i p hp
    obtain ⟨hval, hrest⟩ := checkcidr_ok hheap hstack hp
    split
    · exact Ret.ok_error
    · rename_i bits hbits
      exact hf p bits hp hval (checkbits_ok hrest ((objectOk_iff _).mp hval).2 hbits)

/-- All bits of an address. -/
theorem objectOk_host {p : Cidr} (hp : ObjectOk p) : ObjectOk { p with bits := hostBits p } := by
  rw [objectOk_iff] at hp ⊢
  exact ⟨hp.1, bitsOk_hostBits p⟩

include hheap hstack in
theorem cidrNetwork_ok : (cidrNetwork env heap stack).Ok := by
  refine withMask_ok hheap hstack fun p bits _ hp _ => ?_
  exact Ret.ok_ofCidr hheap fun d hd => applyMask_ok (objectOk_host hp) hd

include hheap hstack in
theorem cidrHost_ok : (cidrHost env heap stack).Ok := by
  unfold cidrHost
  split
  · exact Ret.ok_error
  · refine Ret.ok_returns hheap fun d hd => ?_
    cases hd
    exact objectOk_host (checkcidr_ok hheap hstack ‹_›).1

include hheap hstack in
theorem cidrMask_ok
    (hfresh : ∀ p, checkcidr env heap stack 1 none = some p → env.fresh.len = lenOf p.val.family) :
    (cidrMask env heap stack).Ok := by
  refine withMask_ok hheap hstack fun p bits hcheck _ _ => ?_
  refine Ret.ok_ofCidr hheap fun d hd => applyMask_ok ?_ hd
  rw [objectOk_iff]
  exact ⟨hfresh p hcheck, bitsOk_hostBits p.val⟩

include hheap hstack in
theorem cidrBroadcast_ok : (cidrBroadcast env heap stack).Ok := by
  refine withMask_ok hheap hstack fun p bits _ hp _ => ?_
  split_ifs
  · exact Ret.ok_returns hheap fun d hd => by cases hd
  · exact Ret.ok_ofCidr hheap fun d hd => applyMask_ok (objectOk_host hp) hd

include hheap hstack in
theorem cidrMapped4_ok (hfresh : env.fresh.len = sizeofV4) : (cidrMapped4 env heap stack).Ok := by
  unfold cidrMapped4
  split
  · exact Ret.ok_error
  · rename_i p hp
    have hbits := ((objectOk_iff _).mp (checkcidr_ok hheap hstack hp).1).2.1
    split_ifs with hmapped hbig
    · refine Ret.ok_returns hheap fun d hd => ?_
      cases hd
      exact .inl ⟨rfl, hfresh, by simp, by simp⟩
    · refine Ret.ok_returns hheap fun d hd => ?_
      cases hd
      exact .inl ⟨rfl, hfresh, hbits, Int.not_lt.mp hbig⟩
    · exact Ret.ok_returns hheap fun d hd => by cases hd

include hheap hstack in
theorem cidrAddSub_ok (add : Bool) : (cidrAddSub env heap stack add).Ok := by
  unfold cidrAddSub
  split
  · exact Ret.ok_error
  · rename_i p1 hp1
    split
    · exact Ret.ok_error
    · rename_i p2 hp2
      have hval := (checkcidr_ok hheap hstack hp1).1
      dsimp only
      have hr : ObjectOk (if p1.val.family = p2.val.family then
          { p1.val with addr := addSubAddr add p1.val p2.val } else p1.val) := by
        split_ifs
        · exact hval
        · exact hval
      split
      · exact Ret.ok_set hheap hr
      · exact Ret.ok_returns hheap fun d hd => by cases hd
      · exact Ret.ok_returns hheap fun d hd => by cases hd; exact hr

theorem minhost_ok {r : Cidr} (hr : ObjectOk r) : ObjectOk (minhost r) := by
  unfold minhost
  rcases hr with ⟨hfamily, hlen, hbits⟩ | ⟨hfamily, hlen, hbits⟩
  · rw [hfamily]
    dsimp only
    split_ifs with hfew
    · exact .inl ⟨rfl, hlen, by simp, by simp⟩
    · exact .inl ⟨hfamily, hlen, hbits⟩
  · rw [hfamily]
    dsimp only
    split_ifs with hfew
    · exact .inr ⟨rfl, hlen, by simp, by simp⟩
    · exact .inr ⟨hfamily, hlen, hbits⟩

theorem maxhost_ok {r : Cidr} (hr : ObjectOk r) : ObjectOk (maxhost r) := by
  unfold maxhost
  rcases hr with ⟨hfamily, hlen, hbits⟩ | ⟨hfamily, hlen, hbits⟩
  · rw [hfamily]
    dsimp only
    split_ifs with hfew
    · exact .inl ⟨rfl, hlen, by simp, by simp⟩
    · exact .inl ⟨hfamily, hlen, hbits⟩
  · rw [hfamily]
    exact .inr ⟨rfl, hlen, by simp, by simp⟩

include hheap hstack in
theorem cidrMinhost_ok : (cidrMinhost env heap stack).Ok := by
  unfold cidrMinhost
  split
  · exact Ret.ok_error
  · refine Ret.ok_ofCidr hheap fun d hd => ?_
    obtain ⟨r, hr, rfl⟩ := Option.map_eq_some_iff.mp hd
    exact minhost_ok (applyMask_ok (checkcidr_ok hheap hstack ‹_›).1 hr)

include hheap hstack in
theorem cidrMaxhost_ok : (cidrMaxhost env heap stack).Ok := by
  unfold cidrMaxhost
  split
  · exact Ret.ok_error
  · refine Ret.ok_ofCidr hheap fun d hd => ?_
    obtain ⟨r, hr, rfl⟩ := Option.map_eq_some_iff.mp hd
    exact maxhost_ok (applyMask_ok (checkcidr_ok hheap hstack ‹_›).1 hr)

include hheap hstack in
theorem setBits_ok : (setBits env heap stack).Ok := by
  refine withMask_ok hheap hstack fun p bits _ hp hbits => ?_
  split
  · refine Ret.ok_set hheap ?_
    rw [objectOk_iff] at hp ⊢
    exact ⟨hp.1, hbits⟩
  · exact Ret.ok_returns hheap fun d hd => by cases hd

end

theorem stackOk_args {garbage : List Byte} {args : List Value}
    (h : ∀ s, Value.string s ∈ args → TextOk garbage s) : StackOk garbage (args.map .inl) := by
  constructor
  · intro s hs
    obtain ⟨v, hv, heq⟩ := List.mem_map.mp hs
    cases heq
    exact h s hv
  · intro c hc
    obtain ⟨v, hv, heq⟩ := List.mem_map.mp hc
    cases heq

variable {inet : Inet} {heap : List Cidr}

theorem call_run_ok {c : Call} (hheap : ∀ o ∈ heap, ObjectOk o) (hgood : c.Good inet heap) :
    (c.run inet heap).Ok := by
  have hstack := stackOk_args hgood.texts
  unfold Call.run
  cases hfn : c.fn
  case new => exact Ret.ok_ofNew hheap fun o ho => cidrNew_ok hstack ho
  case ipv4 => exact Ret.ok_ofNew hheap fun o ho => cidrNew_ok hstack ho
  case ipv6 => exact Ret.ok_ofNew hheap fun o ho => cidrNew_ok hstack ho
  case network => exact cidrNetwork_ok hheap hstack
  case host => exact cidrHost_ok hheap hstack
  case mask => exact cidrMask_ok hheap hstack fun p hp => hgood.mask p hfn hp
  case broadcast => exact cidrBroadcast_ok hheap hstack
  case mapped4 => exact cidrMapped4_ok hheap hstack (hgood.mapped4 hfn)
  case add => exact cidrAddSub_ok hheap hstack true
  case sub => exact cidrAddSub_ok hheap hstack false
  case minhost => exact cidrMinhost_ok hheap hstack
  case maxhost => exact cidrMaxhost_ok hheap hstack
  case bits => exact setBits_ok hheap hstack

/-- A good call keeps the objects good. -/
theorem call_next_ok {c : Call} (hheap : ∀ o ∈ heap, ObjectOk o) (hgood : c.Good inet heap) :
    ∀ o ∈ c.next inet heap, ObjectOk o := by
  intro o ho
  have hrun := call_run_ok hheap hgood
  unfold Call.next at ho
  split at ho
  · rename_i heap' new heq
    exact hrun heap' new heq o ho
  · exact hheap o ho

/-- An inet_pton that knows two addresses. -/
def twoAddresses : Inet where
  pton4 s := if s = bytesOf "1.2.3.4" then some fun i => i.toUInt8 + 1 else none
  pton6 s := if s = bytesOf "::1" then some fun i => if i = 15 then 1 else 0 else none

/-- New userdata that holds zeros. -/
def zeroes : Cidr := ⟨fun _ => 0, 0, 0, .inet⟩

def callOf (fn : Fn) (args : List Value) : Call := ⟨fn, args, [], zeroes⟩

theorem textOk_size : TextOk [] (bytesOf "1.2.3.4/24") := by
  have hsplit : (splitSlash (cidrBuf [] (bytesOf "1.2.3.4/24"))).2 = some (bytesOf "24") := by
    decide
  refine ⟨fun h => absurd h.1 (by decide), fun p hp => ?_⟩
  obtain rfl := Option.some.inj (hsplit.symm.trans hp)
  exact fun h => absurd h.2 (by decide)

end Iot7688.LuciIp
