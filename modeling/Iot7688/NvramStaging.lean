import Iot7688.NvramCommit
import Iot7688.Lib.Run

/-!
The nvram tool. Changes go to the staging file, which begins as a copy of the
partition; a commit copies it back and unlinks it. How far each open, read and write
gets is given from outside. The sizes that read and write return are compared only for
the reads.
-/
namespace Iot7688.Nvram

open Lib

structure Files where
  mtd : List Byte
  staging : Option (List Byte)
deriving DecidableEq

/-- How the calls of one copy between the two files turn out. -/
structure Copy where
  findsMtd : Bool
  opensSource : Bool
  reads : ℕ
  opensTarget : Bool
  writes : ℕ

/-- What read leaves in a buffer of the given size. -/
def readFile (reads size : ℕ) (file : List Byte) : List Byte := file.take (min reads size)

/-- A write to the beginning of a file; nothing is cut off behind it. -/
def writeFile (writes : ℕ) (bytes file : List Byte) : List Byte :=
  bytes.take writes ++ file.drop (min writes bytes.length)

/-- nvram_to_staging. -/
def nvramToStaging (c : Copy) (f : Files) : Files × ℤ :=
  let size := f.mtd.length
  if c.findsMtd ∧ 0 < size then
    let buf := readFile c.reads size f.mtd
    if c.opensSource ∧ buf.length = size then
      if c.opensTarget then
        ({ f with staging := some (writeFile c.writes buf (f.staging.getD [])) }, 0)
      else (f, -1)
    else (f, -1)
  else (f, -1)

/-- The partition is opened for writing after the whole buffer was read. -/
def ReadsStaging (c : Copy) (size : ℕ) (staged : List Byte) : Prop :=
  (c.findsMtd ∧ 0 < size) ∧ (c.opensSource ∧ (readFile c.reads size staged).length = size) ∧
    c.opensTarget

instance (c : Copy) (size : ℕ) (staged : List Byte) : Decidable (ReadsStaging c size staged) :=
  inferInstanceAs (Decidable (_ ∧ _))

/-- staging_to_nvram. -/
def stagingToNvram (c : Copy) (unlinks : Bool) (f : Files) : Files × ℤ :=
  match f.staging with
  | none => (f, -1)
  | some staged =>
      let size := f.mtd.length
      if ReadsStaging c size staged then
        let f := { f with mtd := writeFile c.writes (readFile c.reads size staged) f.mtd }
        if unlinks then ({ f with staging := none }, 0) else (f, 1)
      else (f, -1)

/-- How the calls of one invocation turn out. A process that is killed in the mapped
staging file, or does not accept it, leaves it as it left it. -/
structure Outcome where
  findsMtd : Bool
  opens : Bool
  toStaging : Copy
  toNvram : Copy
  unlinks : Bool
  left : List Byte

/-- The first loop of main. An argument behind the last one is a null pointer. -/
def expectsWrite : List CString → Option Bool
  | [] => some false
  | arg :: args =>
      if arg = CString.ofString "set" ∨ arg = CString.ofString "unset" then
        if args = [] then none else some true
      else if arg = CString.ofString "commit" then some true
      else expectsWrite args

structure Cli where
  nvram : Handle
  stat : ℤ
  done : Bool
  commit : Bool

def nvramGetall (h : Handle) : List Tuple := (List.range hashSize).flatMap h.nvramHash

def doShow (h : Handle) : ℤ := if nvramGetall h = [] then 1 else 0

def doGet (h : Handle) (var : CString) : ℤ := if (nvramGet h var).isSome then 0 else 1

def doSet (pair : CString) (c : Cli) : Cli :=
  let var := pair.bytes.takeWhile fun b => b ≠ equals
  match pair.bytes.drop var.length with
  | [] => { c with stat := 1 }
  | _ :: value =>
      match nvramSet c.nvram (CString.ofBytes var) (CString.ofBytes value) with
      | none => { c with stat := -12 }
      | some h => { c with nvram := h, stat := 0 }

/-- The second loop of main. -/
def runArgs : List CString → Cli → Cli
  | [], c => c
  | arg :: args, c =>
      if arg = CString.ofString "show" then
        runArgs args { c with stat := doShow c.nvram, done := true }
      else if arg = CString.ofString "info" then runArgs args { c with stat := 0, done := true }
      else if arg = CString.ofString "get" then
        match args with
        | [] => { c with done := false }
        | var :: args => runArgs args { c with stat := doGet c.nvram var, done := true }
      else if arg = CString.ofString "unset" then
        match args with
        | [] => { c with done := false }
        | var :: args =>
            runArgs args { c with nvram := nvramUnset c.nvram var, stat := 0, done := true }
      else if arg = CString.ofString "set" then
        match args with
        | [] => { c with done := false }
        | pair :: args => runArgs args { doSet pair c with done := true }
      else if arg = CString.ofString "commit" then
        runArgs args { c with commit := true, done := true }
      else { c with done := false }

/-- A mapped file, with zeros up to the end of its last page. -/
def mapFile (file : List Byte) : Mem := fun i => file.getD i 0

def pageSize : ℕ := 4096

/-- Every page of a mapping of the given size has a byte of the file. -/
def MapsAll (size : ℕ) (file : List Byte) : Prop := (size - 1) / pageSize * pageSize < file.length

instance (size : ℕ) (file : List Byte) : Decidable (MapsAll size file) :=
  inferInstanceAs (Decidable (_ < _))

/-- nvram_open_staging, up to the file it opens. -/
def findStaging (o : Outcome) (f : Files) : Files × Bool :=
  if f.staging.isSome then (f, o.findsMtd)
  else ((nvramToStaging o.toStaging f).1, decide ((nvramToStaging o.toStaging f).2 = 0))

/-- The write branch of main up to nvram_close. There is no Cli when the tool does not get
so far. -/
def edit (args : List CString) (o : Outcome) (f : Files) : Files × Option Cli :=
  let found := findStaging o f
  match found.1.staging with
  | none => (found.1, none)
  | some staged =>
      let left := { found.1 with staging := some (o.left.take staged.length) }
      if found.2 ∧ o.opens then
        if MapsAll f.mtd.length staged then
          match nvramOpen f.mtd.length (mapFile staged) false with
          | none => (left, none)
          | some h =>
              let c := runArgs args ⟨h, 1, false, false⟩
              match nvramCommit c.nvram with
              | none => (left, none)
              | some (stat, h) =>
                  ({ found.1 with staging := some (memBytes h.mmap 0 staged.length) },
                    some { c with nvram := h, stat := stat })
        else (left, none)
      else (found.1, none)

/-- nvram_open_rdonly and the commands; nothing is written. -/
def readOnly (args : List CString) (o : Outcome) (f : Files) : ℤ :=
  match (if o.findsMtd ∧ o.opens then
      nvramOpen f.mtd.length (mapFile (f.staging.getD f.mtd)) true else none) with
  | none => 1
  | some h =>
      let c := runArgs args ⟨h, 1, false, false⟩
      if c.done then c.stat else 1

/-- main, with 1 also for the status of a process that is killed. -/
def main (args : List CString) (o : Outcome) (f : Files) : Files × ℤ :=
  match expectsWrite args with
  | none => (f, 1)
  | some false => (f, readOnly args o f)
  | some true =>
      let e := edit args o f
      match e.2 with
      | none => (e.1, 1)
      | some c =>
          let r := if c.commit then stagingToNvram o.toNvram o.unlinks e.1 else (e.1, c.stat)
          (r.1, if c.done then r.2 else 1)

abbrev Invocation := List CString × Outcome

/-- The files after an invocation. -/
def invoke (f : Files) (i : Invocation) : Files := (main i.1 i.2 f).1

/-- The files when main calls staging_to_nvram, if it does. -/
def beforeFlush (i : Invocation) (f : Files) : Option Files :=
  match expectsWrite i.1, (edit i.1 i.2 f).2 with
  | some true, some c => if c.commit then some (edit i.1 i.2 f).1 else none
  | _, _ => none

/-- What staging_to_nvram does to the files, and returns. -/
def flush (i : Invocation) (f : Files) : Files × ℤ := stagingToNvram i.2.toNvram i.2.unlinks f

/-- The staging file goes only after the partition has its whole contents, and is left
alone, with an error, when it does not go. -/
structure StagingSafe (f : Files) (i : Invocation) : Prop where
  unlinked : ∀ g, beforeFlush i f = some g → (flush i g).1.staging = none →
    g.staging = some (flush i g).1.mtd
  kept : ∀ g, beforeFlush i f = some g → (flush i g).1.staging ≠ none →
    (flush i g).2 ≠ 0 ∧ (flush i g).1.staging = g.staging
  remains : f.staging ≠ none → (invoke f i).staging = none →
    ∃ g, beforeFlush i f = some g ∧ invoke f i = (flush i g).1

/-- When the partition is written and the staging file unlinked, what the write leaves out
is in the partition already. -/
def FlushesAll (f : Files) (i : Invocation) : Prop :=
  ∀ g staged, beforeFlush i f = some g → g.staging = some staged →
    ReadsStaging i.2.toNvram g.mtd.length staged → i.2.unlinks = true →
    staged.drop (min i.2.toNvram.writes g.mtd.length) =
      g.mtd.drop (min i.2.toNvram.writes g.mtd.length)

/-- A write of a whole buffer into a file of its size. -/
theorem writeFile_readFile {reads writes : ℕ} {staged file : List Byte}
    (hread : (readFile reads file.length staged).length = file.length) :
    writeFile writes (readFile reads file.length staged) file = staged ↔
      staged.drop (min writes file.length) = file.drop (min writes file.length) := by
  have hbuf : readFile reads file.length staged = staged.take file.length := by
    unfold readFile at hread ⊢
    rw [List.length_take] at hread
    rw [show min reads file.length = file.length by omega]
  unfold writeFile
  rw [hread, hbuf, List.take_take]
  conv_lhs => rw [eq_comm]
  nth_rewrite 1 [← List.take_append_drop (min writes file.length) staged]
  exact List.append_right_inj _

section

variable {c : Copy} {unlinks : Bool} {f : Files} {staged : List Byte}

theorem stagingToNvram_reads (hf : f.staging = some staged)
    (hreads : ReadsStaging c f.mtd.length staged) :
    stagingToNvram c unlinks f =
      (⟨writeFile c.writes (readFile c.reads f.mtd.length staged) f.mtd,
        if unlinks then none else some staged⟩, if unlinks then 0 else 1) := by
  unfold stagingToNvram
  rw [hf]
  dsimp only
  rw [if_pos hreads]
  cases unlinks with
  | true => rfl
  | false =>
    rw [← hf]
    rfl

/-- Without a full read of the staging file nothing changes. -/
theorem stagingToNvram_stops (h : ∀ staged, f.staging = some staged →
    ¬ReadsStaging c f.mtd.length staged) : stagingToNvram c unlinks f = (f, -1) := by
  unfold stagingToNvram
  cases hf : f.staging with
  | none => rfl
  | some staged =>
    dsimp only
    rw [if_neg (h staged hf)]

end

theorem findStaging_kept {o : Outcome} {f : Files} (h : f.staging ≠ none) :
    (findStaging o f).1 = f := by
  unfold findStaging
  rw [if_pos (Option.isSome_iff_ne_none.mpr h)]

/-- The staging file stays in place until it is copied back. -/
theorem edit_staging {args : List CString} {o : Outcome} {f : Files}
    (h : (findStaging o f).1.staging ≠ none) : (edit args o f).1.staging ≠ none := by
  obtain ⟨staged, hstaged⟩ := Option.ne_none_iff_exists'.mp h
  unfold edit
  simp only [hstaged]
  split
  · split
    · split
      · exact Option.some_ne_none _
      · split
        · exact Option.some_ne_none _
        · exact Option.some_ne_none _
    · exact Option.some_ne_none _
  · exact h

theorem edit_cli {args : List CString} {o : Outcome} {f : Files} {c : Cli}
    (h : (edit args o f).2 = some c) : (edit args o f).1.staging ≠ none := by
  apply edit_staging
  intro hnone
  unfold edit at h
  simp only [hnone] at h
  exact absurd h (by simp)

theorem beforeFlush_staging {i : Invocation} {f g : Files} (h : beforeFlush i f = some g) :
    g.staging ≠ none := by
  unfold beforeFlush at h
  split at h
  · rename_i c _ hcli
    split at h
    · obtain rfl := Option.some.inj h
      exact edit_cli hcli
    · exact absurd h (by simp)
  · exact absurd h (by simp)

theorem invoke_flushes {i : Invocation} {f g : Files} (h : beforeFlush i f = some g) :
    invoke f i = (flush i g).1 := by
  unfold beforeFlush at h
  split at h
  · rename_i c hwrite hcli
    split at h
    · rename_i hcommit
      obtain rfl := Option.some.inj h
      unfold invoke main flush
      simp only [hwrite, hcli, hcommit, if_true]
    · exact absurd h (by simp)
  · exact absurd h (by simp)

/-- An invocation that does not copy back leaves a staging file in place. -/
theorem invoke_staging {i : Invocation} {f : Files} (hf : f.staging ≠ none)
    (h : beforeFlush i f = none) : (invoke f i).staging ≠ none := by
  have hedit : (edit i.1 i.2 f).1.staging ≠ none := by
    apply edit_staging
    rwa [findStaging_kept hf]
  unfold invoke main
  unfold beforeFlush at h
  cases hwrite : expectsWrite i.1 with
  | none => exact hf
  | some write =>
    cases write with
    | false => exact hf
    | true =>
      cases hcli : (edit i.1 i.2 f).2 with
      | none => simpa only [hcli] using hedit
      | some c =>
        simp only [hwrite, hcli] at h
        cases hcommit : c.commit with
        | true => simp [hcommit] at h
        | false => simpa only [hcli, hcommit, Bool.false_eq_true, if_false] using hedit

/-- One invocation. -/
theorem stagingSafe_iff (f : Files) (i : Invocation) : StagingSafe f i ↔ FlushesAll f i := by
  constructor
  · intro h g staged hg hstaged hreads hunlinks
    have hflush : flush i g = _ := stagingToNvram_reads hstaged hreads
    rw [hunlinks] at hflush
    have hwhole := h.unlinked g hg (by rw [hflush]; rfl)
    rw [hflush, hstaged] at hwhole
    exact (writeFile_readFile hreads.2.1.2).mp (Option.some.inj hwhole).symm
  · intro h
    refine ⟨fun g hg hnone => ?_, fun g hg hsome => ?_, fun hf hnone => ?_⟩
    · obtain ⟨staged, hstaged⟩ := Option.ne_none_iff_exists'.mp (beforeFlush_staging hg)
      by_cases hreads : ReadsStaging i.2.toNvram g.mtd.length staged
      · have hflush : flush i g = _ := stagingToNvram_reads hstaged hreads
        rw [hflush] at hnone ⊢
        cases hunlinks : i.2.unlinks with
        | false => simp [hunlinks] at hnone
        | true =>
          rw [hstaged]
          exact congrArg some ((writeFile_readFile hreads.2.1.2).mpr
            (h g staged hg hstaged hreads hunlinks)).symm
      · have hflush : flush i g = (g, -1) := stagingToNvram_stops fun s hs => by
          rw [hstaged] at hs
          rwa [← Option.some.inj hs]
        rw [hflush] at hnone
        exact absurd hnone (beforeFlush_staging hg)
    · obtain ⟨staged, hstaged⟩ := Option.ne_none_iff_exists'.mp (beforeFlush_staging hg)
      by_cases hreads : ReadsStaging i.2.toNvram g.mtd.length staged
      · have hflush : flush i g = _ := stagingToNvram_reads hstaged hreads
        rw [hflush] at hsome ⊢
        cases hunlinks : i.2.unlinks with
        | true => simp [hunlinks] at hsome
        | false => exact ⟨Int.one_ne_zero, hstaged.symm⟩
      · have hflush : flush i g = (g, -1) := stagingToNvram_stops fun s hs => by
          rw [hstaged] at hs
          rwa [← Option.some.inj hs]
        rw [hflush]
        exact ⟨Int.negSucc_ne_zero 0, rfl⟩
    · cases hg : beforeFlush i f with
      | none => exact absurd hnone (invoke_staging hf hg)
      | some g => exact ⟨g, rfl, invoke_flushes hg⟩

/-- The runs that never lose the staged changes are those whose copies back are complete. -/
theorem staging_safe_iff (is : List Invocation) (f : Files) :
    Every invoke StagingSafe f is ↔ Every invoke FlushesAll f is :=
  every_congr stagingSafe_iff is f

/-- Every call succeeds, but the write to the partition stores the given number of bytes. -/
def shortWrite (writes : ℕ) : Outcome where
  findsMtd := true
  opens := true
  toStaging := ⟨true, true, 160, true, 160⟩
  toNvram := ⟨true, true, 160, true, writes⟩
  unlinks := true
  left := []

/-- nvram set a=b commit, with a write to the partition that fails. -/
def failedCommit : Invocation :=
  ([CString.ofString "set", CString.ofString "a=b", CString.ofString "commit"], shortWrite 0)

/-- The variable is lost, and the exit status is zero. -/
theorem failed_write_loses_settings :
    ¬Every invoke StagingSafe ⟨memBytes blankImage 0 160, none⟩ [failedCommit] ∧
      main failedCommit.1 failedCommit.2 ⟨memBytes blankImage 0 160, none⟩ =
        (⟨memBytes blankImage 0 160, none⟩, 0) := by
  have hflush : ((beforeFlush failedCommit ⟨memBytes blankImage 0 160, none⟩).any fun g =>
      g.staging.any fun staged => decide (ReadsStaging (shortWrite 0).toNvram g.mtd.length staged) &&
        !decide (staged = g.mtd)) = true := by decide +kernel
  refine ⟨fun h => ?_, by decide +kernel⟩
  obtain ⟨g, hg, hflush⟩ := (Option.any_eq_true _ _).mp hflush
  obtain ⟨staged, hstaged, hflush⟩ := (Option.any_eq_true _ _).mp hflush
  simp only [Bool.and_eq_true, decide_eq_true_eq, Bool.not_eq_true', decide_eq_false_iff_not]
    at hflush
  exact hflush.2 ((stagingSafe_iff _ _).mp h.1 g staged hg hstaged hflush.1 rfl)

end Iot7688.Nvram
