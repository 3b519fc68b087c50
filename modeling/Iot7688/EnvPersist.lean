import Iot7688.EnvMap
import Iot7688.SpiFlash
import Iot7688.Lib.Run

/-!
The environment across a reboot: saveenv writes env_t into its sector,
spi_env_init accepts what it reads back when the CRC fits, and env_relocate
then restores it. The CRC is right after every path of _do_setenv but one: a
definition that was deleted and whose replacement does not fit.
-/
namespace Iot7688.Env

open Lib NorChip SpiFlash

/-- CFG_ENV_ADDR - CFG_FLASH_BASE. -/
def flashAddr : ℕ := cfgBootloaderSize

def cfgEnvSectSize : ℕ := cfgConfigSize

/-- The bytes of env_t; the CRC is a little-endian word. -/
def envBytes (e : EnvT) : Mem := fun i =>
  if i < 4 then ⟨(e.crc >>> (8 * i)).setWidth 8⟩ else e.data[i - 4]?.getD 0

def envOfBytes (m : Mem) : EnvT where
  crc := (m 3).toBitVec ++ (m 2).toBitVec ++ (m 1).toBitVec ++ (m 0).toBitVec
  data := Vector.ofFn fun i => m (4 + i)

/-- saveenv on the sector that holds the environment. -/
def saveenv (k : Controller) (c : ChipInfo) (d : Nor) (e : EnvT) : ℤ × Nor :=
  let flashOffset := flashAddr % cfgEnvSectSize
  let flashSectAddr := flashAddr - flashOffset
  let rd := raspiRead k c d scratch flashSectAddr cfgEnvSectSize
  if rd.1 ≠ cfgEnvSectSize then (1, d)
  else
    let envBuffer := rd.2.copy flashOffset cfgEnvSize (envBytes e)
    let er := raspiErase c d flashSectAddr cfgEnvSectSize
    if er.1 ≠ 0 then (1, er.2)
    else
      let wr := raspiWrite k c er.2 envBuffer flashSectAddr cfgEnvSectSize
      if wr.1 ≠ cfgEnvSectSize then (1, wr.2) else (0, wr.2)

/-- Return value, gd->env_valid and env_ptr after a successful malloc. -/
def spiEnvInit (k : Controller) (c : ChipInfo) (d : Nor) : ℤ × Bool × EnvT :=
  let rd := raspiRead k c d scratch flashAddr cfgEnvSize
  let envPtr := envOfBytes rd.2
  if rd.1 ≠ cfgEnvSize then (-1, false, envPtr)
  else (0, crc32 0 envPtr.data.toList == envPtr.crc, envPtr)

/-- env_ptr after env_relocate: the flash again, or the default environment. -/
def envRelocate (k : Controller) (c : ChipInfo) (d : Nor) (defaultEnvironment : Data)
    (envValid : Bool) : EnvT :=
  if envValid then envOfBytes (raspiRead k c d scratch flashAddr cfgEnvSize).2
  else envCrcUpdate ⟨0, defaultEnvironment⟩

/-- What the next boot works with. -/
def nextBoot (k : Controller) (c : ChipInfo) (d : Nor) (defaultEnvironment : Data) : EnvT :=
  envRelocate k c d defaultEnvironment (spiEnvInit k c d).2.1

/-- The CRC of the RAM copy is right. -/
def EnvT.Sealed (e : EnvT) : Prop := e.crc = crc32 0 e.data.toList

theorem bytes_append_eq (x : BitVec 32) :
    (x >>> 24).setWidth 8 ++ (x >>> 16).setWidth 8 ++ (x >>> 8).setWidth 8 ++
      (x >>> 0).setWidth 8 = x := by
  apply BitVec.eq_of_getLsbD_eq
  intro i hi
  simp only [BitVec.getLsbD_append, BitVec.getLsbD_setWidth, BitVec.getLsbD_ushiftRight]
  split_ifs
  · rw [decide_eq_true (by omega), Bool.true_and, Nat.zero_add]
  · rw [decide_eq_true (by omega), Bool.true_and]
    congr 1
    omega
  · rw [decide_eq_true (by omega), Bool.true_and]
    congr 1
    omega
  · rw [decide_eq_true (by omega), Bool.true_and]
    congr 1
    omega

/-- Memory that holds the bytes of env_t is read as it. -/
theorem envOfBytes_eq {m : Mem} {e : EnvT} (h : ∀ i, i < cfgEnvSize → m i = envBytes e i) :
    envOfBytes m = e := by
  have hcrc : (envOfBytes m).crc = e.crc := by
    simp only [envOfBytes, h 0 (by decide), h 1 (by decide), h 2 (by decide), h 3 (by decide)]
    exact bytes_append_eq e.crc
  have hdata : (envOfBytes m).data = e.data := by
    refine Vector.ext fun i hi => ?_
    have hi' : 4 + i < cfgEnvSize := by
      unfold envSize at hi
      omega
    have hget : e.data[i]? = some e.data[i] := Vector.getElem?_eq_getElem hi
    simp [envOfBytes, h (4 + i) hi', envBytes, hget]
  show EnvT.mk (envOfBytes m).crc (envOfBytes m).data = e
  rw [hcrc, hdata]

theorem chipsData_sector : ∀ c ∈ chipsData, c.sectorSize = cfgEnvSectSize := by
  decide

theorem chipsData_size : ∀ c ∈ chipsData, flashAddr + cfgEnvSectSize ≤ c.size := by
  decide

/-- A read of the environment back from the flash. -/
theorem raspiRead_env (k : Controller) (c : ChipInfo) (hc : c ∈ chipsData) (d : Nor) :
    raspiRead k c d scratch flashAddr cfgEnvSize =
      ((cfgEnvSize : ℤ), scratch.copy 0 cfgEnvSize (d.mem.shift flashAddr)) := by
  have hsize := chipsData_size c hc
  have hle : cfgEnvSize ≤ cfgEnvSectSize := by decide
  exact raspiRead_spec k c d scratch flashAddr cfgEnvSize (by omega)

/-- saveenv stores env_t in its place and nothing else. -/
theorem saveenv_spec (k : Controller) (c : ChipInfo) (hc : c ∈ chipsData) (d : Nor) (e : EnvT)
    (hu : d.Unprotected) :
    (saveenv k c d e).1 = 0 ∧ (saveenv k c d e).2.Unprotected ∧
      (saveenv k c d e).2.mem = d.mem.copy flashAddr cfgEnvSize (envBytes e) := by
  have hsect := chipsData_sector c hc
  have hsize := chipsData_size c hc
  have hone : 1 * c.sectorSize = cfgEnvSectSize := by rw [hsect, Nat.one_mul]
  have hal : c.sectorSize ∣ flashAddr := by
    rw [hsect]
    decide
  have hoff : flashAddr % cfgEnvSectSize = 0 := by decide
  set envBuffer := (scratch.copy 0 cfgEnvSectSize (d.mem.shift flashAddr)).copy 0 cfgEnvSize
    (envBytes e) with hbuf
  obtain ⟨her, hwr, hun, hmem⟩ := erase_write_spec k c 1 d envBuffer flashAddr hu hal
    (by rw [hone]; exact hsize)
  rw [hone] at her hwr hun hmem
  unfold saveenv
  simp only [hoff, Nat.sub_zero, raspiRead_spec k c d scratch flashAddr cfgEnvSectSize hsize,
    ← hbuf, her, hwr, ne_eq, not_true_eq_false, if_false]
  refine ⟨trivial, hun, ?_⟩
  rw [hmem, hbuf, Mem.copy_patched_buffer _ _ _ (by decide), Nat.add_zero]

theorem env_readback (k : Controller) (c : ChipInfo) (hc : c ∈ chipsData) (d : Nor) (e : EnvT)
    (hu : d.Unprotected) :
    raspiRead k c (saveenv k c d e).2 scratch flashAddr cfgEnvSize =
        ((cfgEnvSize : ℤ), scratch.copy 0 cfgEnvSize (envBytes e)) ∧
      envOfBytes (scratch.copy 0 cfgEnvSize (envBytes e)) = e := by
  obtain ⟨_, _, hmem⟩ := saveenv_spec k c hc d e hu
  constructor
  · rw [raspiRead_env k c hc, hmem]
    refine congrArg _ (Mem.copy_congr _ _ _ fun i hi => ?_)
    rw [Mem.shift_apply, Mem.copy_inside _ _ hi]
  · exact envOfBytes_eq fun i hi => Mem.copy_start _ _ hi

/-- The next boot reads back the saved env_t and judges it by its CRC. -/
theorem spiEnvInit_saveenv (k : Controller) (c : ChipInfo) (hc : c ∈ chipsData) (d : Nor)
    (e : EnvT) (hu : d.Unprotected) :
    spiEnvInit k c (saveenv k c d e).2 = (0, crc32 0 e.data.toList == e.crc, e) := by
  obtain ⟨hread, henv⟩ := env_readback k c hc d e hu
  simp only [spiEnvInit, hread, henv, ne_eq, not_true_eq_false, if_false]

/-- A saved env_t with the right CRC is restored by the next boot. -/
theorem nextBoot_saveenv (k : Controller) (c : ChipInfo) (hc : c ∈ chipsData) (d : Nor)
    (e : EnvT) (hu : d.Unprotected) (defaultEnvironment : Data) (he : e.Sealed) :
    nextBoot k c (saveenv k c d e).2 defaultEnvironment = e := by
  obtain ⟨hread, henv⟩ := env_readback k c hc d e hu
  have hvalid : (crc32 0 e.data.toList == e.crc) = true := beq_iff_eq.mpr he.symm
  rw [nextBoot, spiEnvInit_saveenv k c hc d e hu, hvalid, envRelocate, if_pos rfl, hread, henv]

/-- A definition that is to be replaced fits where the old one was deleted. -/
def ReplacementFits (consoleAssign : ℕ → CStr → ℤ) (s : State) (argv : List (Option CStr)) :
    Prop :=
  ∀ name f s1 data env len, argv[1]?.join = some name → argv[2]?.join ≠ none →
    search s.env.data name.bytes 0 = some (some f) →
    overwriteChecks consoleAssign s name argv = some (true, s1) →
    deleteOld s.env.data f.env f.nxt = some data → appendPos data = some env →
    newLen name (argv.drop 2) = some len → len ≤ envSize - env

theorem sealed_crcUpdate (s : State) : s.crcUpdate.env.Sealed := rfl

/-- From the deletion on, only an overflow leaves the CRC as it was. -/
theorem defineNew_sealed {s s' : State} {name : CStr} {argv : List (Option CStr)} {ret : ℤ}
    (h : defineNew s name argv = some (ret, s'))
    (hfit : s.env.Sealed ∨ (argv[2]?.join ≠ none → ∀ env len, appendPos s.env.data = some env →
      newLen name (argv.drop 2) = some len → len ≤ envSize - env)) : s'.env.Sealed := by
  cases hv : argv[2]?.join with
  | none =>
    rw [defineNew_delete s name argv hv] at h
    obtain rfl : s.crcUpdate = s' := (Prod.mk.inj (Option.some.inj h)).2
    exact sealed_crcUpdate s
  | some v =>
    unfold defineNew at h
    simp only [hv, Option.bind_eq_bind, Option.bind_eq_some_iff] at h
    obtain ⟨env, henv, len, hlen, h⟩ := h
    split at h
    · rename_i hover
      obtain rfl : s = s' := (Prod.mk.inj (Option.some.inj h)).2
      rcases hfit with hs | hfit
      · exact hs
      · have := hfit (by rw [hv]; simp) env len henv hlen
        omega
    · rw [Option.bind_eq_some_iff] at h
      obtain ⟨data, _, h⟩ := h
      obtain rfl : postUpdate (s.setData data).crcUpdate name v = s' :=
        (Prod.mk.inj (Option.some.inj h)).2
      rw [EnvT.Sealed, postUpdate_env]
      exact sealed_crcUpdate _

theorem overwriteChecks_env {consoleAssign : ℕ → CStr → ℤ} {s s' : State} {name : CStr}
    {argv : List (Option CStr)} {ok : Bool}
    (h : overwriteChecks consoleAssign s name argv = some (ok, s')) : s'.env = s.env := by
  unfold overwriteChecks at h
  dsimp only at h
  repeat' split at h
  all_goals
    cases h
    try rfl

/-- A call keeps the CRC right unless a replacement overflows. -/
theorem doSetenv_sealed {consoleAssign : ℕ → CStr → ℤ} {s s' : State}
    {argv : List (Option CStr)} {ret : ℤ} (hs : s.env.Sealed)
    (hfit : ReplacementFits consoleAssign s argv)
    (h : doSetenv consoleAssign s argv = some (ret, s')) : s'.env.Sealed := by
  simp only [doSetenv, Option.bind_eq_bind, Option.bind_eq_some_iff] at h
  obtain ⟨name, hname, found, hsearch, h⟩ := h
  cases found with
  | none => exact defineNew_sealed h (Or.inl hs)
  | some f =>
    simp only [Option.bind_eq_some_iff] at h
    obtain ⟨⟨ok, s1⟩, hchecks, h⟩ := h
    have henv := overwriteChecks_env hchecks
    cases ok with
    | false =>
      obtain rfl : s1 = s' := (Prod.mk.inj (Option.some.inj h)).2
      rw [EnvT.Sealed, henv]
      exact hs
    | true =>
      simp only [Bool.not_true, Bool.false_eq_true, if_false, Option.bind_eq_some_iff] at h
      obtain ⟨data, hdel, h⟩ := h
      rw [henv] at hdel
      refine defineNew_sealed h (Or.inr fun hv env len hpos hlen => ?_)
      exact hfit name f s1 data env len hname hv hsearch hchecks hdel hpos hlen

/-- A call of _do_setenv that loses no definition. -/
def SetenvStep (consoleAssign : ℕ → CStr → ℤ) (s t : State) : Prop :=
  ∃ argv ret, ReplacementFits consoleAssign s argv ∧
    doSetenv consoleAssign s argv = some (ret, t)

/-- After any run of such calls the CRC is right, and what saveenv stores is
what the next boot restores. -/
theorem setenv_run_persists (consoleAssign : ℕ → CStr → ℤ) (s t : State) (hs : s.env.Sealed)
    (hrun : Relation.ReflTransGen (SetenvStep consoleAssign) s t) (k : Controller) (c : ChipInfo)
    (hc : c ∈ chipsData) (d : Nor) (hu : d.Unprotected) (defaultEnvironment : Data) :
    t.env.crc = crc32 0 t.env.data.toList ∧
      ((saveenv k c d t.env).1 = 0 →
        spiEnvInit k c (saveenv k c d t.env).2 = (0, true, t.env) ∧
          nextBoot k c (saveenv k c d t.env).2 defaultEnvironment = t.env) := by
  have ht : t.env.Sealed := by
    have hstep : ∀ s t, s.env.Sealed → SetenvStep consoleAssign s t → t.env.Sealed := by
      rintro s t hs ⟨argv, ret, hfit, hcall⟩
      exact doSetenv_sealed hs hfit hcall
    exact run_preserves hstep hrun hs
  refine ⟨ht, fun _ => ⟨?_, nextBoot_saveenv k c hc d t.env hu defaultEnvironment ht⟩⟩
  rw [spiEnvInit_saveenv k c hc d t.env hu, beq_iff_eq.mpr ht.symm]

theorem setenv_run_persists_delete :
    let bootdelay : Entry := ⟨ascii "bootdelay", ascii "5", by decide, by decide, by decide⟩
    let data := Data.ofEntries [bootdelay] (by decide)
    let s : State := ⟨⟨crc32 0 data.toList, data⟩, 57600, [], [], 0, []⟩
    ∃ t, doSetenv (fun _ _ => 0) s [none, some ⟨ascii "bootdelay", by decide⟩] = some (0, t) ∧
      nextBoot rt6855A chipsData[6] (saveenv rt6855A chipsData[6] ⟨fun _ => 0, false, 0⟩
        t.env).2 data = t.env := by
  intro bootdelay data s
  obtain ⟨s', hdel, _⟩ := doSetenv_deletes (fun _ _ => 0) s [bootdelay] none
    ⟨ascii "bootdelay", by decide⟩ [] (Data.holds_ofEntries [bootdelay] (by decide) (by decide))
    (by decide) (by decide)
  rw [defineNew_delete s' _ _ rfl] at hdel
  have hstep : SetenvStep (fun _ _ => 0) s s'.crcUpdate :=
    ⟨_, 0, fun _ _ _ _ _ _ _ hargs => absurd rfl hargs, hdel⟩
  have hmem : chipsData[6] ∈ chipsData := List.getElem_mem _
  obtain ⟨_, hboot⟩ := setenv_run_persists (fun _ _ => 0) s s'.crcUpdate rfl
    (Relation.ReflTransGen.single hstep) rt6855A chipsData[6] hmem ⟨fun _ => 0, false, 0⟩ rfl data
  have hsave := (saveenv_spec rt6855A chipsData[6] hmem ⟨fun _ => 0, false, 0⟩
    s'.crcUpdate.env rfl).1
  exact ⟨s'.crcUpdate, hdel, (hboot hsave).2⟩

/-- Deleting the last definition clears one byte. -/
theorem deleteOld_last {data : Data} {l : List Entry} (hl : l ≠ []) (e : Entry)
    (rest : List Byte) (h : data.toList = flat (l ++ [e]) ++ 0 :: rest) :
    ∃ data' b back, deleteOld data (flat l).length ((flat l).length + e.bytes.length) =
        some data' ∧ b ≠ 0 ∧ data.toList = flat l ++ b :: back ∧
      data'.toList = flat l ++ 0 :: back := by
  obtain ⟨b, s, hbytes, hb⟩ := e.bytes_eq_cons
  obtain ⟨x, l', rfl⟩ := List.exists_cons_of_ne_nil hl
  have hlay : data.toList = flat (x :: l') ++ b :: (s ++ 0 :: 0 :: rest) := by
    rw [h, flat_append, flat_cons e, hbytes]
    simp
  obtain ⟨data', hput, hdata'⟩ := put_at _ _ 0 hlay
  have hend : data.toList = flat (x :: l') ++ b :: s ++ 0 :: 0 :: rest := by
    simpa using hlay
  have hnext := get_next (flat (x :: l') ++ b :: s) rest hend
  refine ⟨data', b, s ++ 0 :: 0 :: rest, ?_, hb, hlay, hdata'⟩
  have hidx : (flat (x :: l')).length + e.bytes.length = (flat (x :: l') ++ b :: s).length := by
    rw [hbytes, List.length_append]
  rw [deleteOld, hidx]
  simp only [hnext, Option.bind_eq_bind, Option.bind_some, if_true]
  rw [if_pos (by simp), hput]

theorem poly_msb : poly.msb = true := by decide

/-- Where a replacement overflows, the last definition is gone and the CRC is
of the area before. -/
theorem doSetenv_overflow (consoleAssign : ℕ → CStr → ℤ) {s : State} {l : List Entry}
    (hl : l ≠ []) {e : Entry} (h : Holds s.env.data (l ++ [e])) (hs : s.env.Sealed)
    (cmd : Option CStr) (name : CStr) (hn : e.name = name.bytes) (hname : equals ∉ name.bytes)
    (hplain : name.bytes ∉ handledNames) (v : CStr) (vs : List CStr)
    (hover : envSize < (encode (l ++ [newEntry name hname (v :: vs)])).length) :
    ∃ t, doSetenv consoleAssign s (cmd :: some name :: (v :: vs).map some) = some (1, t) ∧
      t.env.crc ≠ crc32 0 t.env.data.toList := by
  obtain ⟨rest, hlay⟩ := h.layout
  obtain ⟨rest', hrest', _⟩ := encode_append (l ++ [e]) rest
  have hflat := hlay.trans hrest'
  have habs : ∀ x ∈ l, x.name ≠ name.bytes := by
    intro x hx heq
    have hd := h.distinct
    rw [List.map_append, List.nodup_append] at hd
    exact hd.2.2 x.name (List.mem_map_of_mem hx) e.name (by simp) (heq.trans hn.symm)
  have hsearch := search_found name.bytes l e [] [] rest' (by simpa using hflat) hname habs hn
  rw [List.length_nil, List.nil_append] at hsearch
  obtain ⟨data', b, back, hdel, hb, hdata, hdata'⟩ := deleteOld_last hl e rest' hflat
  obtain ⟨rest2, hrest2⟩ := encode_append_of l back fun h => absurd h hl
  have hdef := defineNew_at (s.setData data') l rest2 cmd name hname v vs
    (hdata'.trans hrest2)
  rw [if_neg (not_le.mpr hover)] at hdef
  refine ⟨s.setData data', ?_, ?_⟩
  · have hargv : (cmd :: some name :: (v :: vs).map some)[1]?.join = some name := rfl
    rw [doSetenv, hargv, Option.bind_eq_bind, Option.bind_some]
    simp only [hsearch, overwriteChecks_plain consoleAssign s name _ hplain, hdel,
      Option.bind_eq_bind, Option.bind_some, Bool.not_true, Bool.false_eq_true, if_false, hdef]
  · show s.env.crc ≠ crc32 0 data'.toList
    rw [hs, hdata, hdata', crc32, crc32]
    intro heq
    refine Crc.updates_ne_of_byte_ne poly poly_msb (by decide) (0 ^^^ 0xffffffff#32) (flat l)
      back hb ?_
    simpa using congrArg (· ^^^ 0xffffffff#32) heq

/-- A definition as long as one likes. -/
def longEntry (n : ℕ) : Entry where
  name := ascii "b"
  value := List.replicate n 0x78
  name_no_nul := by decide
  name_no_equals := by decide
  value_no_nul := fun h => absurd (List.eq_of_mem_replicate h) (by decide)

def entryA : Entry := ⟨ascii "a", ascii "1", by decide, by decide, by decide⟩

theorem encode_long (n : ℕ) (e : Entry) :
    (encode [longEntry n, e]).length = n + e.bytes.length + 5 := by
  simp [encode, longEntry, Entry.bytes, ascii]
  omega

/-- setenv a 12 on an area that b=x... and a=1 fill to the last byte: a=1 is
deleted, a=12 does not fit, and after saveenv the next boot rejects the
environment. -/
theorem setenv_overflow_loses_environment :
    ∃ hfit : (encode [longEntry 4084, entryA]).length ≤ envSize,
    let data := Data.ofEntries [longEntry 4084, entryA] hfit
    let s : State := ⟨⟨crc32 0 data.toList, data⟩, 57600, [], [], 0, []⟩
    let argv : List (Option CStr) :=
      [none, some ⟨ascii "a", by decide⟩, some ⟨ascii "12", by decide⟩]
    s.env.crc = crc32 0 s.env.data.toList ∧
      ∃ t, doSetenv (fun _ _ => 0) s argv = some (1, t) ∧ t.env.crc ≠ crc32 0 t.env.data.toList ∧
        (saveenv rt6855A chipsData[6] ⟨fun _ => 0xff, false, 0⟩ t.env).1 = 0 ∧
        (spiEnvInit rt6855A chipsData[6] (saveenv rt6855A chipsData[6] ⟨fun _ => 0xff, false, 0⟩
          t.env).2).2.1 = false := by
  have hfit : (encode [longEntry 4084, entryA]).length ≤ envSize := by
    rw [encode_long]
    decide
  refine ⟨hfit, ?_⟩
  intro data s argv
  have hover : envSize < (encode ([longEntry 4084] ++
      [newEntry ⟨ascii "a", by decide⟩ (by decide) [⟨ascii "12", by decide⟩]])).length := by
    rw [List.singleton_append, encode_long]
    decide
  have hsealed : s.env.Sealed := rfl
  obtain ⟨t, hcall, hcrc⟩ := doSetenv_overflow (fun _ _ => 0)
    (List.cons_ne_nil (longEntry 4084) []) (Data.holds_ofEntries [longEntry 4084, entryA] hfit
      (by decide)) hsealed none ⟨ascii "a", by decide⟩ rfl (by decide) (by decide)
    ⟨ascii "12", by decide⟩ [] hover
  have hmem : chipsData[6] ∈ chipsData := List.getElem_mem _
  refine ⟨hsealed, t, hcall, hcrc, ?_, ?_⟩
  · exact (saveenv_spec rt6855A chipsData[6] hmem ⟨fun _ => 0xff, false, 0⟩ t.env rfl).1
  · rw [spiEnvInit_saveenv rt6855A chipsData[6] hmem ⟨fun _ => 0xff, false, 0⟩ t.env rfl]
    exact beq_false_of_ne (Ne.symm hcrc)

end Iot7688.Env
