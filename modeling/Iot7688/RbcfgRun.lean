import Iot7688.Rbcfg
import Iot7688.Lib.Run

/-!
Runs of the configuration utility. The temporary file is overwritten in place, so that a
write that stops inside of what it changes leaves a mixture of two configurations. Such a
file still has the size that rbcfg_load looks at, and no run accepts its CRC.
-/
namespace Iot7688.Rbcfg

open Lib

abbrev Input := List String × Write

def next (s : Store) (i : Input) : Store := (main s i.1 i.2).1

/-- A run of the get command; it writes nothing. -/
def get (s : Store) (name : String) : Except Err (List String) := (main s ["get", name] .fails).2

/-- After the run, get still loads a configuration, with the value from before the run or
the one that the run was setting. -/
def Kept (s : Store) (i : Input) : Prop :=
  (∃ buf, load (next s i) = .ok buf) ∧
    ∀ name, get (next s i) name = get s name ∨
      ∃ data, i.1 = ["set", name, data] ∧ get (next s i) name = .ok [data]

/-- The bytes that a set command writes into the temporary file. -/
def staged (s : Store) (argv : List String) : Option (List Byte) :=
  match argv, load s with
  | ["set", name, data], .ok buf =>
      (envNamed name).bind fun env =>
        (envSet buf env data).toOption.bind fun buf => (stamped buf).toOption
  | _, _ => none

/-- A write to a temporary file in use does not stop inside of what it changes: it has not
come to the first byte that differs, or it is past the last one. -/
def Whole (s : Store) (i : Input) : Prop :=
  ∀ n new, i.2 = .wrote n → checkTmp s = true → staged s i.1 = some new →
    new.take n = (source s).take n ∨ new.drop n = (source s).drop n

/-- The tag that a set command changes has the four bytes that rbcfg_set_u32 writes. -/
def Roomy (s : Store) (i : Input) : Prop :=
  ∀ name data buf env len p, i.1 = ["set", name, data] → load s = .ok buf →
    envNamed name = some env → findTag buf env.id = .ok (len, p) → 4 ≤ len

theorem poly_msb : poly.msb = true := by decide

/-- The CRC tells configurations apart that differ in one word. -/
theorem cygEtherCrc32_patch {buf piece piece' : List Byte} {off : ℕ} (hlen : piece.length = 4)
    (hlen' : piece'.length = 4)
    (h : cygEtherCrc32 (patch buf off piece) = cygEtherCrc32 (patch buf off piece')) :
    piece = piece' := by
  refine Crc.updates_injective_bytes poly poly_msb (0#32 ^^^ 0xffffffff#32) (buf.take off)
    (buf.drop (off + 4)) (hlen.trans hlen'.symm) (by omega) ?_
  have hbits := congrArg UInt32.toBitVec h
  unfold cygEtherCrc32 patch at hbits
  rw [hlen, hlen'] at hbits
  exact (BitVec.xor_left_inj _).mp hbits

/-- A mixture of a file and the one with another word passes the tests only if it is one
of the two. -/
theorem checked_mixture {buf m : List Byte} {p k : ℕ} {v : UInt32} (h : Blank buf) (hp : 12 ≤ p)
    (hroom : p + 4 ≤ buf.length)
    (hm : checked (overwrite (sealed buf) (sealed (patch buf p (be32 v))) k) = .ok m) :
    overwrite (sealed buf) (sealed (patch buf p (be32 v))) k = sealed buf ∨
      overwrite (sealed buf) (sealed (patch buf p (be32 v))) k = sealed (patch buf p (be32 v)) := by
  have hpiece : p + (be32 v).length ≤ buf.length := hroom
  have hnew := h.patch_word v (by omega) hroom
  have hlen : (sealed (patch buf p (be32 v))).length = (sealed buf).length := by
    rw [hnew.length_sealed, h.length_sealed, length_patch hpiece]
  obtain ⟨hblank, heq⟩ := checked_ok.mp hm
  -- what the CRC is taken of: only the word of the tag may be a mixture
  have hbuf : patch buf p (overwrite (segment buf p 4) (be32 v) (k - p)) = m := by
    have hmixed : patch (overwrite (sealed buf) (sealed (patch buf p (be32 v))) k) 4 (be32 0) =
        overwrite (patch (sealed buf) 4 (be32 0)) (patch (sealed (patch buf p (be32 v))) 4 (be32 0))
          k := patch_overwrite hlen (h.length_sealed ▸ h.crcRoom 0)
    rw [h.patch_sealed, hnew.patch_sealed, heq, hblank.patch_sealed] at hmixed
    rw [hmixed]
    exact (overwrite_patch hpiece k).symm
  have hcrc : overwrite (be32 (cygEtherCrc32 buf)) (be32 (cygEtherCrc32 (patch buf p (be32 v))))
      (k - 4) = be32 (cygEtherCrc32 m) := by
    rw [← hblank.sealed_crc, ← heq, segment_overwrite hlen, h.sealed_crc, hnew.sealed_crc]
  rw [heq]
  by_cases hk : k ≤ 8
  · left
    rw [Nat.sub_eq_zero_of_le (by omega), overwrite_zero, patch_segment hroom] at hbuf
    rw [hbuf]
  · right
    rw [overwrite_all (by rw [be32_length]; omega) (by rw [be32_length]; omega), ← hbuf] at hcrc
    have hseg : (be32 v).length = (segment buf p 4).length := (length_segment hroom).symm
    have hword : (overwrite (segment buf p 4) (be32 v) (k - p)).length = 4 :=
      (length_overwrite hseg).trans (length_segment hroom)
    rw [← hbuf, ← cygEtherCrc32_patch (be32_length v) hword (be32_inj.mp hcrc)]

section

variable {s : Store} {buf : List Byte}

theorem get_eq (h : load s = .ok buf) (name : String) : get s name = cmdGet buf [name] := by
  have hget : get s name = (exec s .get [name] .fails).2 := rfl
  rw [hget]
  simp only [exec, h]

theorem command_set {name : String} {c : String × Command}
    (h : commands.find? (fun c => c.1 == name) = some c) (hset : c.2 = .set) : name = "set" := by
  have hmem := List.mem_of_find?_eq_some h
  have hname : c.1 = name := by simpa using List.find?_some h
  rw [← hname]
  simp only [commands, List.mem_cons, List.not_mem_nil, or_false] at hmem
  rcases hmem with rfl | rfl | rfl | rfl | rfl <;> first | rfl | cases hset

theorem update_openFails (tmp : Bool) : (update s buf tmp .openFails).1 = s := by
  unfold update
  split
  · rfl
  · rfl

theorem update_apply (h : load s = .ok buf) (w : Write) :
    (update s buf false w).1 = { s with mtdDevice := writeOver w s.mtdDevice (source s) } := by
  unfold update
  rw [stamped_of_checked h]
  dsimp only
  split
  · next hw =>
    rw [hw]
    rfl
  · rfl

theorem update_set (hblank : Blank buf) {w : Write} (hw : w ≠ .openFails) :
    let f := s.tmpFile.getD ⟨true, []⟩
    (update s buf true w).1 =
      { s with tmpFile := some { f with data := writeOver w f.data (sealed buf) } } := by
  unfold update
  rw [hblank.stamped_eq]
  dsimp only
  rw [if_neg hw, if_pos rfl]

/-- What a run does to the files, by its command. -/
theorem next_cases (h : load s = .ok buf) (argv : List String) (w : Write) :
    next s (argv, w) = s ∨
    next s (argv, w) = { s with mtdDevice := writeOver w s.mtdDevice (source s) } ∨
    ∃ name data, argv = ["set", name, data] ∧ next s (argv, w) = (cmdSet s buf w [name, data]).1 := by
  cases argv with
  | nil => exact .inl rfl
  | cons name argv =>
    unfold next main
    dsimp only
    cases hfind : commands.find? fun c => c.1 == name with
    | none => exact .inl rfl
    | some c =>
      dsimp only
      cases hc : c.2 with
      | help => exact .inl rfl
      | get | «show» =>
        simp only [exec, h]
        exact .inl trivial
      | apply =>
        simp only [exec, h]
        exact .inr (.inl (update_apply h w))
      | set =>
        simp only [exec, h]
        match argv with
        | [name', data] => exact .inr (.inr ⟨name', data, by rw [command_set hfind hc], rfl⟩)
        | [] | [_] | _ :: _ :: _ :: _ => exact .inl rfl

theorem cmdSet_cases (name data : String) (w : Write) :
    (cmdSet s buf w [name, data]).1 = s ∨
    ∃ env v len p, envNamed name = some env ∧ envFind env data = some v ∧
      findTag buf env.id = .ok (len, p) := by
  simp only [cmdSet]
  cases henv : envNamed name with
  | none => exact .inl rfl
  | some env =>
    dsimp only
    unfold envSet
    cases hv : envFind env data with
    | none => exact .inl rfl
    | some v =>
      dsimp only
      cases htag : findTag buf env.id with
      | error err =>
        left
        unfold tagSetU32
        rw [htag]
      | ok tag => exact .inr ⟨env, v, tag.1, tag.2, rfl, hv, htag⟩

end

section

variable {s : Store}

theorem source_of_checkTmp {f : File} (htmp : s.tmpFile = some f) (h : checkTmp s = true) :
    source s = f.data := by
  simp only [source, htmp, h, if_true]

theorem source_of_not (h : checkTmp s = false) : source s = s.mtdDevice := by
  cases htmp : s.tmpFile with
  | none => simp only [source, htmp]
  | some f => simp only [source, htmp, h, Bool.false_eq_true, if_false]

theorem length_source : (source s).length = s.mtdDevice.length := by
  cases h : checkTmp s with
  | false => rw [source_of_not h]
  | true =>
    cases htmp : s.tmpFile with
    | none => simp [checkTmp, htmp] at h
    | some f =>
      rw [source_of_checkTmp htmp h]
      simp only [checkTmp, htmp, Bool.and_eq_true, beq_iff_eq] at h
      exact h.2

/-- A run writes the device with what is on it, or beside a temporary file in use. -/
theorem source_apply (w : Write) :
    source { s with mtdDevice := writeOver w s.mtdDevice (source s) } = source s := by
  have hlen : (writeOver w s.mtdDevice (source s)).length = s.mtdDevice.length := by
    cases w with
    | openFails | fails => rfl
    | wrote n => exact length_overwrite length_source
  cases h : checkTmp s with
  | false =>
    have hdev : writeOver w s.mtdDevice (source s) = s.mtdDevice := by
      rw [source_of_not h]
      cases w with
      | openFails | fails => rfl
      | wrote n => exact overwrite_self _ _
    rw [hdev]
  | true =>
    cases htmp : s.tmpFile with
    | none => simp [checkTmp, htmp] at h
    | some f =>
      generalize writeOver w s.mtdDevice (source s) = dev at hlen ⊢
      rw [source_of_checkTmp htmp h]
      refine source_of_checkTmp (show Store.tmpFile ⟨dev, some f⟩ = some f from rfl) ?_
      simpa [checkTmp, htmp, hlen] using h

/-- A temporary file that was not in use gets in use only with all of the new bytes. -/
theorem source_set_unused {new : List Byte} {w : Write} (h : checkTmp s = false)
    (hnew : new.length = s.mtdDevice.length) (hpos : 0 < s.mtdDevice.length) :
    let f := s.tmpFile.getD ⟨true, []⟩
    let s' : Store := { s with tmpFile := some { f with data := writeOver w f.data new } }
    source s' = source s ∨ source s' = new := by
  intro f s'
  cases hchk : checkTmp s' with
  | false =>
    left
    rw [source_of_not hchk, source_of_not h]
  | true =>
    right
    have huse : f.regular = true ∧ (writeOver w f.data new).length = s.mtdDevice.length := by
      simpa [s', checkTmp] using hchk
    have hother : f.data.length ≠ s.mtdDevice.length := by
      intro hsize
      cases htmp : s.tmpFile with
      | none =>
        have hnil : f.data = [] := by simp [f, htmp]
        rw [hnil] at hsize
        exact absurd hsize.symm (by simp only [List.length_nil]; omega)
      | some f' =>
        have hf : f = f' := by simp [f, htmp]
        simp [checkTmp, htmp, ← hf, huse.1, hsize] at h
    rw [source_of_checkTmp rfl hchk]
    cases w with
    | openFails | fails => exact absurd huse.2 hother
    | wrote n =>
      have hsize := huse.2
      simp only [writeOver, overwrite, List.length_append, List.length_take,
        List.length_drop] at hsize
      exact overwrite_all (by omega) (by omega)

/-- A temporary file in use stays in use. -/
theorem source_set_used {new : List Byte} {w : Write} (h : checkTmp s = true)
    (hnew : new.length = s.mtdDevice.length) :
    let f := s.tmpFile.getD ⟨true, []⟩
    source { s with tmpFile := some { f with data := writeOver w f.data new } } =
      writeOver w (source s) new := by
  intro f
  cases htmp : s.tmpFile with
  | none => simp [checkTmp, htmp] at h
  | some f' =>
    have hf : f = f' := by simp [f, htmp]
    rw [source_of_checkTmp htmp h, hf]
    simp only [checkTmp, htmp, Bool.and_eq_true, beq_iff_eq] at h
    have hlen : (writeOver w f'.data new).length = s.mtdDevice.length := by
      cases w with
      | openFails | fails => exact h.2
      | wrote n =>
        rw [← h.2] at hnew
        exact (length_overwrite hnew).trans h.2
    generalize writeOver w f'.data new = data at hlen ⊢
    let s' : Store := { s with tmpFile := some { f' with data := data } }
    have hchk : checkTmp s' = true := by simp [s', checkTmp, h.1, hlen]
    exact source_of_checkTmp (show s'.tmpFile = _ from rfl) hchk

end

/-- A set command finds its option, its value and its tag. -/
structure Setting (buf : List Byte) (name data : String) (env : Env) (v : Value) (len p : ℕ) :
    Prop where
  named : envNamed name = some env
  valued : envFind env data = some v
  tagged : findTag buf env.id = .ok (len, p)
  room : 4 ≤ len

namespace Setting

variable {s : Store} {buf : List Byte} {name data : String} {env : Env} {v : Value} {len p : ℕ}
variable (hset : Setting buf name data env v len p)

include hset

theorem place : 12 ≤ p ∧ p + 4 ≤ buf.length := by
  have hplace := findTag_place hset.tagged
  have hroom := hset.room
  omega

theorem blank (h : Blank buf) : Blank (patch buf p (be32 v.u32)) :=
  h.patch_word v.u32 (Nat.le_trans (by omega) hset.place.1) hset.place.2

theorem envSet_eq : envSet buf env data = .ok (patch buf p (be32 v.u32)) := by
  rw [envSet, hset.valued]
  exact tagSetU32_eq hset.tagged hset.room v.u32

theorem cmdSet_eq (w : Write) :
    cmdSet s buf w [name, data] = update s (patch buf p (be32 v.u32)) true w := by
  simp only [cmdSet, hset.named, hset.envSet_eq]

theorem staged_eq (h : load s = .ok buf) :
    staged s ["set", name, data] = some (sealed (patch buf p (be32 v.u32))) := by
  have hblank := (checked_ok.mp h).1
  simp only [staged, h, hset.named, Option.bind_some, hset.envSet_eq, Except.toOption,
    (hset.blank hblank).stamped_eq]

theorem length_staged (h : load s = .ok buf) :
    (sealed (patch buf p (be32 v.u32))).length = s.mtdDevice.length := by
  obtain ⟨hblank, hsource⟩ := checked_ok.mp h
  have hpiece : p + (be32 v.u32).length ≤ buf.length := hset.place.2
  rw [(hset.blank hblank).length_sealed, length_patch hpiece, ← hblank.length_sealed, ← hsource,
    length_source]

theorem cmdGet_patch (name' : String) :
    cmdGet (patch buf p (be32 v.u32)) [name'] = cmdGet buf [name'] ∨
      name' = name ∧ cmdGet (patch buf p (be32 v.u32)) [name'] = .ok [data] := by
  obtain ⟨hmem, hname⟩ := envNamed_some hset.named
  by_cases heq : name' = name
  · right
    refine ⟨heq, ?_⟩
    have hget := envGet_set hmem hset.valued (tagGetU32_set hset.tagged hset.room v.u32)
    simp only [cmdGet, heq, hset.named, hget]
  · left
    unfold cmdGet
    dsimp only
    cases henv' : envNamed name' with
    | none => rfl
    | some env' =>
      obtain ⟨hmem', hname'⟩ := envNamed_some henv'
      have hne : env.id ≠ env'.id := by
        intro hid
        exact heq (by rw [← hname, ← hname', env_id env hmem env' hmem' hid])
      dsimp only
      rw [envGet, envGet, tagGetU32_set_ne hset.tagged hset.room hne]

end Setting

section

variable {s : Store} {i : Input} {buf : List Byte} (h : load s = .ok buf)

include h

theorem kept_of_source (hsource : source (next s i) = source s) : Kept s i := by
  have hload : load (next s i) = .ok buf := by rw [load, hsource, ← load, h]
  refine ⟨⟨buf, hload⟩, fun name => .inl ?_⟩
  rw [get_eq hload, get_eq h]

theorem kept_of_staged {name data : String} {env : Env} {v : Value} {len p : ℕ}
    (hset : Setting buf name data env v len p) (hargv : i.1 = ["set", name, data])
    (hsource : source (next s i) = sealed (patch buf p (be32 v.u32))) : Kept s i := by
  have hload : load (next s i) = .ok (patch buf p (be32 v.u32)) := by
    rw [load, hsource]
    exact checked_ok.mpr ⟨hset.blank (checked_ok.mp h).1, rfl⟩
  refine ⟨⟨_, hload⟩, fun name' => ?_⟩
  rw [get_eq hload, get_eq h]
  rcases hset.cmdGet_patch name' with hget | ⟨rfl, hget⟩
  · exact .inl hget
  · exact .inr ⟨data, hargv, hget⟩

end

/-- What a set command stages is the setting of a word. -/
theorem staged_some {s : Store} {i : Input} {buf new : List Byte} (h : load s = .ok buf)
    (hroom : Roomy s i) (hstaged : staged s i.1 = some new) :
    ∃ name data env v len p, i.1 = ["set", name, data] ∧ Setting buf name data env v len p := by
  unfold staged at hstaged
  split at hstaged
  · next name data buf' hargv hload =>
    obtain rfl : buf = buf' := Except.ok.inj (h.symm.trans hload)
    obtain ⟨env, henv, hset⟩ := Option.bind_eq_some_iff.mp hstaged
    unfold envSet at hset
    cases hv : envFind env data with
    | none =>
      rw [hv] at hset
      cases hset
    | some v =>
      cases htag : findTag buf env.id with
      | error err =>
        simp only [hv, tagSetU32, htag, Except.toOption, Option.bind_none] at hset
        cases hset
      | ok tag =>
        have hlen := hroom name data buf env tag.1 tag.2 hargv h henv htag
        exact ⟨name, data, env, v, tag.1, tag.2, hargv, henv, hv, htag, hlen⟩
  · cases hstaged

section

variable {s : Store} {buf : List Byte} (h : load s = .ok buf)
variable {name data : String} {env : Env} {v : Value} {len p : ℕ}
variable (hset : Setting buf name data env v len p)

include h hset

/-- What a set command leaves for the next run. -/
theorem source_set (w : Write) :
    let new := sealed (patch buf p (be32 v.u32))
    let s' := (cmdSet s buf w [name, data]).1
    checkTmp s = true ∧ source s' = writeOver w (source s) new ∨
      checkTmp s = false ∧ (source s' = source s ∨ source s' = new) := by
  intro new s'
  have hlen := hset.length_staged h
  by_cases hw : w = .openFails
  · have hsame : s' = s := by
      simp only [s', hset.cmdSet_eq, hw]
      exact update_openFails true
    rw [hsame, hw]
    cases checkTmp s with
    | true => exact .inl ⟨rfl, rfl⟩
    | false => exact .inr ⟨rfl, .inl rfl⟩
  · have hcmd : s' = (update s (patch buf p (be32 v.u32)) true w).1 :=
      congrArg Prod.fst (hset.cmdSet_eq w)
    rw [hcmd, update_set (hset.blank (checked_ok.mp h).1) hw]
    cases hchk : checkTmp s with
    | true => exact .inl ⟨rfl, source_set_used hchk hlen⟩
    | false =>
      have hpos : 0 < s.mtdDevice.length := by
        have hroom := hset.place
        have hload := (checked_ok.mp h).1.length_sealed
        rw [← (checked_ok.mp h).2, length_source] at hload
        omega
      exact .inr ⟨rfl, source_set_unused hchk hlen hpos⟩

end

theorem next_set {s : Store} {buf : List Byte} (h : load s = .ok buf) (name data : String)
    (w : Write) : next s (["set", name, data], w) = (cmdSet s buf w [name, data]).1 := by
  have hnext : next s (["set", name, data], w) = (exec s .set [name, data] w).1 := rfl
  rw [hnext]
  simp only [exec, h]

theorem whole_of_kept {s : Store} {i : Input} {buf : List Byte} (h : load s = .ok buf)
    (hroom : Roomy s i) (hkept : Kept s i) : Whole s i := by
  intro n new hw hchk hstaged
  obtain ⟨name, data, env, v, len, p, hargv, hset⟩ := staged_some h hroom hstaged
  rw [hargv, hset.staged_eq h] at hstaged
  obtain rfl := Option.some.inj hstaged
  obtain ⟨hblank, hsource⟩ := checked_ok.mp h
  obtain ⟨⟨m, hm⟩, -⟩ := hkept
  have hlen : (sealed (patch buf p (be32 v.u32))).length = (source s).length := by
    rw [hset.length_staged h, length_source]
  have hnext : next s i = (cmdSet s buf (.wrote n) [name, data]).1 := by
    rw [← next_set h, ← hw, ← hargv]
  rcases source_set h hset (.wrote n) with ⟨-, hafter⟩ | ⟨hnot, -⟩
  · rw [load, hnext, hafter, writeOver, overwrite_min hlen, hsource] at hm
    rw [hsource] at hlen ⊢
    rcases checked_mixture hblank hset.place.1 hset.place.2 hm with hold | hnew
    · exact .inl ((overwrite_eq_old hlen).mp hold)
    · exact .inr ((overwrite_eq_new hlen).mp hnew)
  · rw [hchk] at hnot
    cases hnot

theorem kept_of_whole {s : Store} {i : Input} {buf : List Byte} (h : load s = .ok buf)
    (hroom : Roomy s i) (hwhole : Whole s i) : Kept s i := by
  obtain ⟨argv, w⟩ := i
  rcases next_cases h argv w with hsame | happly | ⟨name, data, rfl, hnext⟩
  · exact kept_of_source h (by rw [hsame])
  · exact kept_of_source h (by rw [happly, source_apply])
  · rcases cmdSet_cases name data w with hsame | ⟨env, v, len, p, henv, hv, htag⟩
    · exact kept_of_source h (by rw [hnext, hsame])
    have hset : Setting buf name data env v len p :=
      ⟨henv, hv, htag, hroom name data buf env len p rfl h henv htag⟩
    rcases source_set h hset w with ⟨hchk, hafter⟩ | ⟨-, hsame | hnew⟩
    · rw [← hnext] at hafter
      cases w with
      | openFails | fails => exact kept_of_source h hafter
      | wrote n =>
        have hlen : (sealed (patch buf p (be32 v.u32))).length = (source s).length := by
          rw [hset.length_staged h, length_source]
        rw [writeOver, overwrite_min hlen] at hafter
        rcases hwhole n _ rfl hchk (hset.staged_eq h) with hold | hnew
        · rw [(overwrite_eq_old hlen).mpr hold] at hafter
          exact kept_of_source h hafter
        · rw [(overwrite_eq_new hlen).mpr hnew] at hafter
          exact kept_of_staged h hset rfl hafter
    · exact kept_of_source h (by rw [hnext, hsame])
    · exact kept_of_staged h hset rfl (by rw [hnext, hnew])

/-- From a valid configuration, and as long as the words that are set have their room, the
runs in which every command keeps the configuration are those without a write to the
temporary file in use that stops inside of what it changes. -/
theorem commands_keep {s : Store} {is : List Input} {buf : List Byte} (h : load s = .ok buf)
    (hroom : Every next Roomy s is) : Every next Kept s is ↔ Every next Whole s is := by
  have hkeep (s : Store) (i : Input) (h : ∃ buf, load s = .ok buf) (hi : Roomy s i ∧ Whole s i) :
      ∃ buf, load (next s i) = .ok buf := by
    obtain ⟨buf, h⟩ := h
    exact (kept_of_whole h hi.1 hi.2).1
  have hiff (s : Store) (i : Input) (h : ∃ buf, load s = .ok buf) :
      Roomy s i ∧ Kept s i ↔ Roomy s i ∧ Whole s i := by
    obtain ⟨buf, h⟩ := h
    exact and_congr_right fun hroom => ⟨whole_of_kept h hroom, kept_of_whole h hroom⟩
  have hboth := every_iff hkeep hiff is ⟨buf, h⟩
  rw [every_and, every_and] at hboth
  exact ⟨fun hkept => (hboth.mp ⟨hroom, hkept⟩).2, fun hwhole => (hboth.mpr ⟨hroom, hwhole⟩).2⟩

theorem roomy_of_tag {s : Store} {buf : List Byte} {name data : String} {env : Env} {len p : ℕ}
    {w : Write} (h : load s = .ok buf) (henv : envNamed name = some env)
    (htag : findTag buf env.id = .ok (len, p)) (hlen : 4 ≤ len) :
    Roomy s (["set", name, data], w) := by
  intro name' data' buf' env' len' p' hargv hload henv' htag'
  obtain ⟨rfl, rfl⟩ : name = name' ∧ data = data' := by simpa using hargv
  obtain rfl : buf = buf' := Except.ok.inj (h.symm.trans hload)
  obtain rfl : env = env' := Option.some.inj (henv.symm.trans henv')
  obtain ⟨rfl, rfl⟩ := Prod.mk.inj (Except.ok.inj (htag.symm.trans htag'))
  exact hlen

/-- A boot delay of two seconds, boot on any key, and the terminator. -/
def twoSeconds : List Byte :=
  [0x74, 0x66, 0x6f, 0x53, 0xc4, 0x24, 0x97, 0xf9, 0, 4, 0, 2, 0, 0, 0, 2, 0, 4, 0, 4, 0, 0, 0, 0,
    0, 0, 0, 0]

/-- A set, an apply that stops after nine bytes, and a set that stops before the CRC. -/
def threeRuns : List Input :=
  [(["set", "boot_delay", "5"], .wrote 28), (["apply"], .wrote 9),
    (["set", "boot_delay", "6"], .wrote 4)]

theorem commands_keep_threeRuns : Every next Kept ⟨twoSeconds, none⟩ threeRuns := by
  have hdelay : envNamed "boot_delay" = some ⟨"boot_delay", rbIdBootDelay, bootDelay⟩ := by decide
  have hload : load ⟨twoSeconds, none⟩ = .ok (patch twoSeconds 4 (be32 0)) := by decide +kernel
  have htag : findTag (patch twoSeconds 4 (be32 0)) rbIdBootDelay = .ok (4, 12) := by decide +kernel
  let five := patch (patch twoSeconds 4 (be32 0)) 12 (be32 5)
  let applied := next (next ⟨twoSeconds, none⟩ (["set", "boot_delay", "5"], .wrote 28))
    (["apply"], .wrote 9)
  have hfive : load applied = .ok five := by decide +kernel
  have htag' : findTag five rbIdBootDelay = .ok (4, 12) := by decide +kernel
  have hroom : Every next Roomy ⟨twoSeconds, none⟩ threeRuns := by
    refine ⟨roomy_of_tag hload hdelay htag (Nat.le_refl 4), ?_,
      roomy_of_tag hfive hdelay htag' (Nat.le_refl 4), trivial⟩
    intro name data buf env len p hargv
    exact absurd (List.cons.inj hargv).1 (by decide)
  refine (commands_keep hload hroom).mpr ⟨?_, ?_, ?_, trivial⟩
  · intro n new _ hchk
    exact absurd hchk (by decide)
  · intro n new _ _ hstaged
    cases hstaged
  · intro n new hn _ hstaged
    obtain rfl : 4 = n := Write.wrote.inj hn
    have hsix : staged applied ["set", "boot_delay", "6"] =
        some (sealed (patch five 12 (be32 6))) := by decide +kernel
    obtain rfl := Option.some.inj (hsix.symm.trans hstaged)
    exact .inl (by decide +kernel)

/-- A set that stops behind the CRC leaves a temporary file which the runs from then on
reject, beside a configuration in flash that is still valid. -/
theorem torn_set_rejected :
    let s : Store := ⟨twoSeconds, none⟩
    let is : List Input :=
      [(["set", "boot_delay", "5"], .wrote 28), (["set", "boot_delay", "6"], .wrote 8)]
    let torn := is.foldl next s
    (∃ buf, checked torn.mtdDevice = .ok buf) ∧ get torn "boot_delay" = .error .invalid ∧
      ¬Every next Kept s is := by
  intro s is torn
  have hvalid : (checked torn.mtdDevice).isOk = true := by decide +kernel
  have hreject : load torn = .error .invalid := by decide +kernel
  have hget : get torn "boot_delay" = .error .invalid := by decide +kernel
  refine ⟨?_, hget, ?_⟩
  · cases hflash : checked torn.mtdDevice with
    | error err =>
      rw [hflash] at hvalid
      cases hvalid
    | ok buf => exact ⟨buf, rfl⟩
  · rintro ⟨-, ⟨⟨buf, hload⟩, -⟩, -⟩
    exact absurd (hreject.symm.trans hload) (by simp)

end Iot7688.Rbcfg
