import Iot7688.Lib.Run
import Mathlib.Data.Fin.Basic

/-!
The GPIO class of the test program, over the files of sysfs. A call is given the
outcomes of its system calls. The class keeps the direction and the level it last
asked for and leaves out a write that would not change the level; it does not look at
what write returns.
-/
namespace Iot7688.Gpio

open Lib

def numOfGpio : ℕ := 64

def gpioStateUnknown : ℤ := -1
def gpioStateLow : ℤ := 0
def gpioStateHigh : ℤ := 1

structure TGpioInfo where
  fd : ℤ
  state : ℤ
  isOutput : Bool

structure CGpio where
  gpioInfo : Fin numOfGpio → TGpioInfo
  errorMessage : String

/-- The constructor: only the descriptors are set. -/
def CGpio.new (memory : CGpio) : CGpio :=
  { memory with gpioInfo := fun n => { memory.gpioInfo n with fd := -1 } }

inductive File
  | gpioExport
  | direction (n : Fin numOfGpio)
  | value (n : Fin numOfGpio)
deriving DecidableEq

def pathGpioClass : String := "/sys/class/gpio"

def pathGpio (n : Fin numOfGpio) : String := pathGpioClass ++ "/gpio" ++ toString n.val

def File.path : File → String
  | .gpioExport => pathGpioClass ++ "/export"
  | .direction n => pathGpio n ++ "/direction"
  | .value n => pathGpio n ++ "/value"

/-- A call of write: it may fail. -/
structure Write where
  file : File
  text : String
  done : Bool

/-- The outcomes of the system calls that a call may make; strerror is the text for
the one that fails. -/
structure Outcome where
  access : Bool
  exportFd : ℤ
  exportWritten : Bool
  directionFd : ℤ
  directionWritten : Bool
  valueFd : ℤ
  valueWritten : Bool
  read : Option String
  strerror : String

/-- The object and the writes to sysfs, the newest first. -/
structure Board where
  gpio : CGpio
  writes : List Write

namespace Board

variable (b : Board)

def info (n : Fin numOfGpio) : TGpioInfo := b.gpio.gpioInfo n

/-- snprintf into errorMessage. -/
def error (text : String) : Board :=
  { b with gpio := { b.gpio with errorMessage := String.ofList (text.toList.take 127) } }

def write (w : Write) : Board := { b with writes := w :: b.writes }

def setInfo (n : Fin numOfGpio) (info : TGpioInfo) : Board :=
  { b with gpio := { b.gpio with gpioInfo := Function.update b.gpio.gpioInfo n info } }

@[simp] theorem error_info (text : String) : (b.error text).info = b.info := rfl

@[simp] theorem error_writes (text : String) : (b.error text).writes = b.writes := rfl

@[simp] theorem write_info (w : Write) : (b.write w).info = b.info := rfl

@[simp] theorem write_writes (w : Write) : (b.write w).writes = w :: b.writes := rfl

@[simp] theorem setInfo_info (n : Fin numOfGpio) (info : TGpioInfo) :
    (b.setInfo n info).info = Function.update b.info n info := rfl

@[simp] theorem setInfo_writes (n : Fin numOfGpio) (info : TGpioInfo) :
    (b.setInfo n info).writes = b.writes := rfl

end Board

def directionText (asOutput : Bool) : String := if asOutput then "out" else "in"

def stateText (aState : ℤ) : String := if aState = gpioStateLow then "0" else "1"

def outOfRange : String := "GPIO number out range, 0 to 64."

def pin (aGpioNumber : ℤ) : Option (Fin numOfGpio) :=
  if h : 0 ≤ aGpioNumber ∧ aGpioNumber < numOfGpio then
    some ⟨aGpioNumber.toNat, (Int.toNat_lt h.1).mpr h.2⟩
  else none

def setup (o : Outcome) (b : Board) (aGpioNumber : ℤ) (asOutput : Bool) : ℤ × Board :=
  let b := b.error ""
  match pin aGpioNumber with
  | none => (-1, b.error outOfRange)
  | some n =>
      if 0 ≤ (b.info n).fd then (0, b)
      else if o.access = false ∧ o.exportFd < 0 then
        (-1, b.error ("Export GPIO" ++ toString n.val ++ " " ++ o.strerror))
      else
        let b := if o.access then b else b.write ⟨.gpioExport, toString n.val, o.exportWritten⟩
        if o.directionFd < 0 then
          (-1, b.error ("Fail to open " ++ (File.direction n).path ++ ", " ++ o.strerror))
        else
          let b := b.write ⟨.direction n, directionText asOutput, o.directionWritten⟩
          if o.valueFd < 0 then
            (-1, b.error ("Fail to open " ++ (File.value n).path ++ ", " ++ o.strerror))
          else (0, b.setInfo n ⟨o.valueFd, gpioStateUnknown, asOutput⟩)

def set (o : Outcome) (b : Board) (aGpioNumber aState : ℤ) : ℤ × Board :=
  let b := b.error ""
  match pin aGpioNumber with
  | none => (-1, b.error outOfRange)
  | some n =>
      if (b.info n).fd < 0 then (-1, b.error ("GPIO" ++ toString n.val ++ " not opened."))
      else if (b.info n).isOutput then
        if (b.info n).state ≠ aState ∧ (aState = gpioStateLow ∨ aState = gpioStateHigh) then
          let b := b.setInfo n { b.info n with state := aState }
          (0, b.write ⟨.value n, stateText aState, o.valueWritten⟩)
        else (0, b)
      else (-1, b.error ("Unable to write GPIO" ++ toString n.val ++ ", it is input."))

/-- What the first byte of the buffer means. -/
def readState (buf : String) : ℤ :=
  match buf.toList.head? with
  | some '0' => gpioStateLow
  | some '1' => gpioStateHigh
  | _ => gpioStateUnknown

def get (o : Outcome) (b : Board) (aGpioNumber : ℤ) : ℤ × Board :=
  let b := b.error ""
  match pin aGpioNumber with
  | none => (-1, b.error outOfRange)
  | some n =>
      if (b.info n).fd < 0 then (-1, b.error ("GPIO" ++ toString n.val ++ " not opened."))
      else if (b.info n).isOutput then ((b.info n).state, b)
      else
        -- after a failed read the buffer holds the text of the error
        let b := match o.read with
          | some _ => b
          | none => b.error ("Unable to read GPIO" ++ toString n.val ++ ", " ++ o.strerror)
        let state := readState (o.read.getD o.strerror)
        let b := if state = gpioStateUnknown then
            b.error ("Invalid value read from GPIO" ++ toString n.val ++ ".") else b
        (state, b.setInfo n { b.info n with state := state })

inductive Call
  | setup (aGpioNumber : ℤ) (asOutput : Bool)
  | set (aGpioNumber aState : ℤ)
  | get (aGpioNumber : ℤ)

def call (b : Board) : Call × Outcome → ℤ × Board
  | (.setup n asOutput, o) => setup o b n asOutput
  | (.set n aState, o) => set o b n aState
  | (.get n, o) => get o b n

def step (b : Board) (c : Call × Outcome) : Board := (call b c).2

/-- The text of the last write to a file that succeeded. -/
def lastWritten (writes : List Write) (file : File) : Option String :=
  (writes.find? fun w => w.done && w.file == file).map Write.text

/-- A successful setup leaves the pin in the direction asked for, a successful set to a
level leaves it as the last value written. -/
def Contract (b : Board) (c : Call × Outcome) : Prop :=
  match c.1 with
  | .setup aGpioNumber asOutput => (call b c).1 = 0 →
      ∃ n, pin aGpioNumber = some n ∧
        lastWritten (step b c).writes (.direction n) = some (directionText asOutput)
  | .set aGpioNumber aState => aState = gpioStateLow ∨ aState = gpioStateHigh → (call b c).1 = 0 →
      ∃ n, pin aGpioNumber = some n ∧
        lastWritten (step b c).writes (.value n) = some (stateText aState)
  | .get _ => True

/-- The writes that a call relies on succeed, or change nothing, and an open pin is not
set up in the other direction. -/
def CallOk (b : Board) (c : Call × Outcome) : Prop :=
  match c with
  | (.setup aGpioNumber asOutput, o) => ∀ n, pin aGpioNumber = some n →
      if 0 ≤ (b.info n).fd then (b.info n).isOutput = asOutput
      else (o.access = true ∨ 0 ≤ o.exportFd) → 0 ≤ o.directionFd → 0 ≤ o.valueFd →
        o.directionWritten = true ∨
          lastWritten b.writes (.direction n) = some (directionText asOutput)
  | (.set aGpioNumber aState, o) => ∀ n, pin aGpioNumber = some n →
      0 ≤ (b.info n).fd → (b.info n).isOutput = true → (b.info n).state ≠ aState →
      aState = gpioStateLow ∨ aState = gpioStateHigh →
      o.valueWritten = true ∨ lastWritten b.writes (.value n) = some (stateText aState)
  | (.get _, _) => True

theorem directionText_inj {out out' : Bool} (h : directionText out = directionText out') :
    out = out' := by
  cases out <;> cases out' <;> first | rfl | exact absurd h (by decide)

/-- For every open pin the object and the files agree. -/
structure Agrees (b : Board) (n : Fin numOfGpio) : Prop where
  direction : lastWritten b.writes (.direction n) = some (directionText (b.info n).isOutput)
  value : (b.info n).isOutput = true →
    (b.info n).state = gpioStateLow ∨ (b.info n).state = gpioStateHigh →
    lastWritten b.writes (.value n) = some (stateText (b.info n).state)

def Inv (b : Board) : Prop := ∀ n, 0 ≤ (b.info n).fd → Agrees b n

theorem lastWritten_cons (w : Write) (writes : List Write) (file : File) :
    lastWritten (w :: writes) file =
      if w.done = true ∧ w.file = file then some w.text else lastWritten writes file := by
  unfold lastWritten
  rw [List.find?_cons]
  by_cases h : w.done = true ∧ w.file = file
  · simp [h]
  · rw [if_neg h]
    have hfalse : (w.done && w.file == file) = false := by
      simpa using h
    rw [hfalse]

/-- Another file's write leaves the last one. -/
theorem lastWritten_of_ne {w : Write} {file : File} (h : w.file ≠ file) (writes : List Write) :
    lastWritten (w :: writes) file = lastWritten writes file := by
  rw [lastWritten_cons, if_neg fun hw => h hw.2]

/-- What the object and the files hold for a pin is the same. -/
structure SameAt (b b' : Board) (n : Fin numOfGpio) : Prop where
  info : b'.info n = b.info n
  direction : lastWritten b'.writes (.direction n) = lastWritten b.writes (.direction n)
  value : lastWritten b'.writes (.value n) = lastWritten b.writes (.value n)

/-- An open pin that is left alone still agrees. -/
theorem SameAt.agrees {b b' : Board} {n : Fin numOfGpio} (h : SameAt b b' n) (hinv : Inv b)
    (hopen : 0 ≤ (b'.info n).fd) : Agrees b' n := by
  rw [h.info] at hopen
  obtain ⟨hdirection, hvalue⟩ := hinv n hopen
  refine ⟨?_, fun hout hstate => ?_⟩
  · rw [h.direction, h.info]
    exact hdirection
  · rw [h.info] at hout hstate ⊢
    rw [h.value]
    exact hvalue hout hstate

theorem sameAt_at {b b' : Board} {n : Fin numOfGpio} (hinfo : b'.info n = b.info n)
    (hwrites : b'.writes = b.writes) : SameAt b b' n :=
  ⟨hinfo, by rw [hwrites], by rw [hwrites]⟩

theorem sameAt_of {b b' : Board} (hinfo : b'.info = b.info) (hwrites : b'.writes = b.writes)
    (n : Fin numOfGpio) : SameAt b b' n :=
  sameAt_at (congrFun hinfo n) hwrites

theorem SameAt.trans {b b' b'' : Board} {n : Fin numOfGpio} (h : SameAt b b' n)
    (h' : SameAt b' b'' n) : SameAt b b'' n :=
  ⟨h'.info.trans h.info, h'.direction.trans h.direction, h'.value.trans h.value⟩

/-- The system calls of setup that have to succeed. -/
def Opens (o : Outcome) : Prop :=
  (o.access = true ∨ 0 ≤ o.exportFd) ∧ 0 ≤ o.directionFd ∧ 0 ≤ o.valueFd

/-- What setup can do: fail without touching an open pin, find the pin open, or open it. -/
theorem setup_cases (o : Outcome) (b : Board) (aGpioNumber : ℤ) (asOutput : Bool) :
    let r := setup o b aGpioNumber asOutput
    (r.1 = -1 ∧ (∀ m, r.2.info m = b.info m ∧ (0 ≤ (b.info m).fd → SameAt b r.2 m)) ∧
      ∀ n, pin aGpioNumber = some n → (b.info n).fd < 0 ∧ ¬Opens o) ∨
    (r.1 = 0 ∧ (∀ m, SameAt b r.2 m) ∧ ∃ n, pin aGpioNumber = some n ∧ 0 ≤ (b.info n).fd) ∨
    (r.1 = 0 ∧ ∃ n, pin aGpioNumber = some n ∧ (b.info n).fd < 0 ∧ Opens o ∧
      r.2.info n = ⟨o.valueFd, gpioStateUnknown, asOutput⟩ ∧
      lastWritten r.2.writes (.direction n) =
        (if o.directionWritten = true then some (directionText asOutput)
          else lastWritten b.writes (.direction n)) ∧
      ∀ m, m ≠ n → SameAt b r.2 m) := by
  unfold setup
  dsimp only
  cases hpin : pin aGpioNumber with
  | none =>
    refine Or.inl ⟨rfl, fun m => ?_, fun n h => by cases h⟩
    exact ⟨by simp, fun _ => sameAt_of (by simp) (by simp) m⟩
  | some n =>
    dsimp only
    rw [Board.error_info]
    by_cases hopen : 0 ≤ (b.info n).fd
    · rw [if_pos hopen]
      exact Or.inr (Or.inl ⟨rfl, sameAt_of (by simp) (by simp), n, rfl, hopen⟩)
    have hclosed := not_le.mp hopen
    have hnone : ¬Opens o → ∀ k, some n = some k → (b.info k).fd < 0 ∧ ¬Opens o := by
      intro h k hk
      obtain rfl := Option.some.inj hk
      exact ⟨hclosed, h⟩
    rw [if_neg hopen]
    by_cases hexport : o.access = false ∧ o.exportFd < 0
    · rw [if_pos hexport]
      refine Or.inl ⟨rfl, fun m => ⟨by simp, fun _ => sameAt_of (by simp) (by simp) m⟩,
        hnone fun h => ?_⟩
      rcases h.1 with haccess | hfd
      · rw [hexport.1] at haccess
        exact Bool.false_ne_true haccess
      · omega
    rw [if_neg hexport]
    have hexport' : o.access = true ∨ 0 ≤ o.exportFd := by
      cases haccess : o.access with
      | true => exact Or.inl rfl
      | false => exact Or.inr (not_lt.mp fun hfd => hexport ⟨haccess, hfd⟩)
    -- a write to export is of no account
    generalize hb' : (if o.access = true then b.error "" else
      (b.error "").write ⟨.gpioExport, toString n.val, o.exportWritten⟩) = b'
    have hinfo : b'.info = b.info := by
      rw [← hb']
      split <;> simp
    have hwrites : ∀ file, file ≠ .gpioExport →
        lastWritten b'.writes file = lastWritten b.writes file := by
      intro file hfile
      rw [← hb']
      split
      · rw [Board.error_writes]
      · rw [Board.write_writes, Board.error_writes]
        exact lastWritten_of_ne hfile.symm _
    have hsame : ∀ m, SameAt b b' m := fun m =>
      ⟨congrFun hinfo m, hwrites _ (by simp), hwrites _ (by simp)⟩
    by_cases hdir : o.directionFd < 0
    · rw [if_pos hdir]
      have herror : ∀ text m, SameAt b (b'.error text) m := fun text m =>
        (hsame m).trans (sameAt_of (Board.error_info b' text) (Board.error_writes b' text) m)
      exact Or.inl ⟨rfl, fun m => ⟨(herror _ m).info, fun _ => herror _ m⟩,
        hnone fun h => absurd hdir (not_lt.mpr h.2.1)⟩
    rw [if_neg hdir]
    set b'' := b'.write ⟨.direction n, directionText asOutput, o.directionWritten⟩ with hb''
    have hothers : ∀ m, m ≠ n → SameAt b b'' m := fun m hm =>
      (hsame m).trans ⟨rfl, lastWritten_of_ne (by simpa using hm.symm) _,
        lastWritten_of_ne (by simp) _⟩
    by_cases hvalue : o.valueFd < 0
    · rw [if_pos hvalue]
      refine Or.inl ⟨rfl, fun m => ⟨by simpa [hb''] using congrFun hinfo m, fun hm => ?_⟩,
        hnone fun h => absurd hvalue (not_lt.mpr h.2.2)⟩
      have hne : m ≠ n := by
        rintro rfl
        exact hopen hm
      exact (hothers m hne).trans
        (sameAt_of (Board.error_info b'' _) (Board.error_writes b'' _) m)
    · rw [if_neg hvalue]
      refine Or.inr (Or.inr ⟨rfl, n, rfl, hclosed, ⟨hexport', not_lt.mp hdir, not_lt.mp hvalue⟩,
        by simp, ?_, fun m hm => (hothers m hm).trans ⟨?_, rfl, rfl⟩⟩)
      · rw [Board.setInfo_writes, hb'', Board.write_writes, lastWritten_cons,
          hwrites _ (by simp)]
        simp
      · rw [Board.setInfo_info, Function.update_of_ne hm]

/-- What set can do: fail, leave the write out, or write. -/
theorem set_cases (o : Outcome) (b : Board) (aGpioNumber aState : ℤ) :
    let r := set o b aGpioNumber aState
    (r.1 = -1 ∧ (∀ m, SameAt b r.2 m) ∧ ∀ n, pin aGpioNumber = some n →
      ¬(0 ≤ (b.info n).fd ∧ (b.info n).isOutput = true)) ∨
    (r.1 = 0 ∧ (∀ m, SameAt b r.2 m) ∧ ∃ n, pin aGpioNumber = some n ∧
      0 ≤ (b.info n).fd ∧ (b.info n).isOutput = true ∧
      ((b.info n).state = aState ∨ ¬(aState = gpioStateLow ∨ aState = gpioStateHigh))) ∨
    (r.1 = 0 ∧ ∃ n, pin aGpioNumber = some n ∧ 0 ≤ (b.info n).fd ∧ (b.info n).isOutput = true ∧
      (b.info n).state ≠ aState ∧ (aState = gpioStateLow ∨ aState = gpioStateHigh) ∧
      r.2.info n = { b.info n with state := aState } ∧
      lastWritten r.2.writes (.direction n) = lastWritten b.writes (.direction n) ∧
      lastWritten r.2.writes (.value n) =
        (if o.valueWritten = true then some (stateText aState)
          else lastWritten b.writes (.value n)) ∧
      ∀ m, m ≠ n → SameAt b r.2 m) := by
  unfold set
  dsimp only
  cases hpin : pin aGpioNumber with
  | none => exact Or.inl ⟨rfl, sameAt_of (by simp) (by simp), fun n h => by cases h⟩
  | some n =>
    dsimp only
    rw [Board.error_info]
    by_cases hclosed : (b.info n).fd < 0
    · rw [if_pos hclosed]
      refine Or.inl ⟨rfl, sameAt_of (by simp) (by simp), fun k hk h => ?_⟩
      obtain rfl := Option.some.inj hk
      omega
    have hopen := not_lt.mp hclosed
    rw [if_neg hclosed]
    cases hout : (b.info n).isOutput with
    | false =>
      rw [if_neg Bool.false_ne_true]
      refine Or.inl ⟨rfl, sameAt_of (by simp) (by simp), fun k hk h => ?_⟩
      obtain rfl := Option.some.inj hk
      rw [hout] at h
      exact Bool.false_ne_true h.2
    | true =>
      rw [if_pos rfl]
      by_cases hwrite : (b.info n).state ≠ aState ∧
          (aState = gpioStateLow ∨ aState = gpioStateHigh)
      · rw [if_pos hwrite]
        refine Or.inr (Or.inr ⟨rfl, n, rfl, hopen, hout, hwrite.1, hwrite.2, by simp [hout], ?_, ?_,
          fun m hm => ⟨?_, ?_, ?_⟩⟩)
        · exact lastWritten_of_ne (by simp) _
        · rw [Board.write_writes, lastWritten_cons]
          simp
        · simp [Function.update_of_ne hm]
        · exact lastWritten_of_ne (by simp) _
        · exact lastWritten_of_ne (by simpa using hm.symm) _
      · rw [if_neg hwrite]
        refine Or.inr (Or.inl ⟨rfl, sameAt_of (by simp) (by simp), n, rfl, hopen, hout, ?_⟩)
        by_cases hstate : (b.info n).state = aState
        · exact Or.inl hstate
        · exact Or.inr fun hlevel => hwrite ⟨hstate, hlevel⟩

/-- A get changes nothing but the level that is kept for an input. -/
theorem get_cases (o : Outcome) (b : Board) (aGpioNumber : ℤ) :
    let r := get o b aGpioNumber
    (∀ m, SameAt b r.2 m) ∨ ∃ n, (b.info n).isOutput = false ∧
      r.2.info n = { b.info n with state := r.1 } ∧ r.2.writes = b.writes ∧
      ∀ m, m ≠ n → SameAt b r.2 m := by
  unfold get
  dsimp only
  cases hpin : pin aGpioNumber with
  | none => exact Or.inl (sameAt_of (by simp) (by simp))
  | some n =>
    dsimp only
    rw [Board.error_info]
    by_cases hclosed : (b.info n).fd < 0
    · rw [if_pos hclosed]
      exact Or.inl (sameAt_of (by simp) (by simp))
    rw [if_neg hclosed]
    cases hout : (b.info n).isOutput with
    | true =>
      rw [if_pos rfl]
      exact Or.inl (sameAt_of (by simp) (by simp))
    | false =>
      rw [if_neg Bool.false_ne_true]
      generalize hmessage : (match o.read with
        | some _ => b.error ""
        | none => (b.error "").error ("Unable to read GPIO" ++ toString n.val ++ ", " ++
            o.strerror)) = b'
      have hinfo : b'.info = b.info ∧ b'.writes = b.writes := by
        rw [← hmessage]
        cases o.read <;> exact ⟨by simp, by simp⟩
      generalize hinvalid : (if readState (o.read.getD o.strerror) = gpioStateUnknown then
        b'.error ("Invalid value read from GPIO" ++ toString n.val ++ ".") else b') = b''
      have hinfo' : b''.info = b.info ∧ b''.writes = b.writes := by
        rw [← hinvalid]
        split
        · exact ⟨by rw [Board.error_info, hinfo.1], by rw [Board.error_writes, hinfo.2]⟩
        · exact hinfo
      refine Or.inr ⟨n, hout, ?_, ?_, fun m hm => sameAt_at ?_ ?_⟩
      · rw [Board.setInfo_info, Function.update_self, hinfo'.1]
      · rw [Board.setInfo_writes, hinfo'.2]
      · rw [Board.setInfo_info, Function.update_of_ne hm, hinfo'.1]
      · rw [Board.setInfo_writes, hinfo'.2]

theorem setup_inv {o : Outcome} {b : Board} {aGpioNumber : ℤ} {asOutput : Bool} (h : Inv b)
    (hok : CallOk b (.setup aGpioNumber asOutput, o)) : Inv (setup o b aGpioNumber asOutput).2 := by
  intro m hopen
  rcases setup_cases o b aGpioNumber asOutput with ⟨_, hsame, _⟩ | ⟨_, hsame, _⟩ |
    ⟨_, n, hpin, hclosed, hopens, hinfo, hdir, hothers⟩
  · have hopen' : 0 ≤ (b.info m).fd := by
      rw [← (hsame m).1]
      exact hopen
    exact ((hsame m).2 hopen').agrees h hopen
  · exact (hsame m).agrees h hopen
  · by_cases hm : m = n
    · subst hm
      have hdirection := hok m hpin
      rw [if_neg (not_le.mpr hclosed)] at hdirection
      refine ⟨?_, fun _ hstate => ?_⟩
      · rw [hdir, hinfo]
        split
        · rfl
        · rename_i hfailed
          exact (hdirection hopens.1 hopens.2.1 hopens.2.2).resolve_left hfailed
      · -- the level of a pin just opened is not known
        rw [hinfo] at hstate
        exact absurd hstate (show ¬(gpioStateUnknown = gpioStateLow ∨
          gpioStateUnknown = gpioStateHigh) by decide)
    · exact (hothers m hm).agrees h hopen

theorem set_inv {o : Outcome} {b : Board} {aGpioNumber aState : ℤ} (h : Inv b)
    (hok : CallOk b (.set aGpioNumber aState, o)) : Inv (set o b aGpioNumber aState).2 := by
  intro m hopen
  rcases set_cases o b aGpioNumber aState with ⟨_, hsame, _⟩ | ⟨_, hsame, _⟩ |
    ⟨_, n, hpin, hfd, hout, hstate, hlevel, hinfo, hdir, hvalue, hothers⟩
  · exact (hsame m).agrees h hopen
  · exact (hsame m).agrees h hopen
  · by_cases hm : m = n
    · subst hm
      have hwritten := hok m hpin hfd hout hstate hlevel
      refine ⟨?_, fun _ _ => ?_⟩
      · rw [hdir, hinfo]
        exact (h m hfd).direction
      · rw [hvalue, hinfo]
        split
        · rfl
        · rename_i hfailed
          exact hwritten.resolve_left hfailed
    · exact (hothers m hm).agrees h hopen

theorem get_inv {o : Outcome} {b : Board} {aGpioNumber : ℤ} (h : Inv b) :
    Inv (get o b aGpioNumber).2 := by
  intro m hopen
  rcases get_cases o b aGpioNumber with hsame | ⟨n, hout, hinfo, hwrites, hothers⟩
  · exact (hsame m).agrees h hopen
  · by_cases hm : m = n
    · subst hm
      rw [hinfo] at hopen
      refine ⟨?_, fun hout' _ => ?_⟩
      · rw [hwrites, hinfo]
        exact (h m hopen).direction
      · rw [hinfo] at hout'
        exact absurd (hout.symm.trans hout') Bool.false_ne_true
    · exact (hothers m hm).agrees h hopen

/-- A good call keeps the object and the files in agreement. -/
theorem step_inv (b : Board) (c : Call × Outcome) (h : Inv b) (hok : CallOk b c) :
    Inv (step b c) := by
  obtain ⟨call, o⟩ := c
  cases call with
  | setup aGpioNumber asOutput => exact setup_inv h hok
  | set aGpioNumber aState => exact set_inv h hok
  | get aGpioNumber => exact get_inv h

theorem setup_contract (o : Outcome) {b : Board} (aGpioNumber : ℤ) (asOutput : Bool) (h : Inv b) :
    Contract b (.setup aGpioNumber asOutput, o) ↔ CallOk b (.setup aGpioNumber asOutput, o) := by
  show ((setup o b aGpioNumber asOutput).1 = 0 → ∃ n, pin aGpioNumber = some n ∧
    lastWritten (setup o b aGpioNumber asOutput).2.writes (.direction n) =
      some (directionText asOutput)) ↔ _
  rcases setup_cases o b aGpioNumber asOutput with ⟨hr, _, hnone⟩ | ⟨hr, hsame, n, hpin, hopen⟩ |
    ⟨hr, n, hpin, hclosed, hopens, _, hdir, _⟩
  · refine ⟨fun _ n hpin => ?_, fun _ hzero => ?_⟩
    · obtain ⟨hclosed, hopens⟩ := hnone n hpin
      rw [if_neg (not_le.mpr hclosed)]
      exact fun hexport hdir hvalue => absurd ⟨hexport, hdir, hvalue⟩ hopens
    · rw [hr] at hzero
      exact absurd hzero (by decide)
  · -- the pin keeps the direction it was opened in
    have hlast := (hsame n).direction.trans (h n hopen).direction
    constructor
    · intro hcontract k hk
      obtain rfl := Option.some.inj (hpin.symm.trans hk)
      obtain ⟨k, hk', hwanted⟩ := hcontract hr
      obtain rfl := Option.some.inj (hpin.symm.trans hk')
      rw [if_pos hopen]
      exact directionText_inj (Option.some.inj (hlast.symm.trans hwanted))
    · intro hok _
      have hsame := hok n hpin
      rw [if_pos hopen] at hsame
      rw [hsame] at hlast
      exact ⟨n, hpin, hlast⟩
  · constructor
    · intro hcontract k hk
      obtain rfl := Option.some.inj (hpin.symm.trans hk)
      obtain ⟨k, hk', hwanted⟩ := hcontract hr
      obtain rfl := Option.some.inj (hpin.symm.trans hk')
      rw [if_neg (not_le.mpr hclosed)]
      intro _ _ _
      rw [hdir] at hwanted
      split at hwanted
      · rename_i hwritten
        exact Or.inl hwritten
      · exact Or.inr hwanted
    · intro hok _
      have hwritten := hok n hpin
      rw [if_neg (not_le.mpr hclosed)] at hwritten
      refine ⟨n, hpin, ?_⟩
      rw [hdir]
      split
      · rfl
      · rename_i hfailed
        exact (hwritten hopens.1 hopens.2.1 hopens.2.2).resolve_left hfailed

theorem set_contract (o : Outcome) {b : Board} (aGpioNumber aState : ℤ) (h : Inv b) :
    Contract b (.set aGpioNumber aState, o) ↔ CallOk b (.set aGpioNumber aState, o) := by
  show (_ → (set o b aGpioNumber aState).1 = 0 → ∃ n, pin aGpioNumber = some n ∧
    lastWritten (set o b aGpioNumber aState).2.writes (.value n) = some (stateText aState)) ↔ _
  rcases set_cases o b aGpioNumber aState with ⟨hr, _, hnone⟩ |
    ⟨hr, hsame, n, hpin, hfd, hout, hskip⟩ |
    ⟨hr, n, hpin, hfd, hout, hstate, hlevel, hinfo, hdir, hvalue, hothers⟩
  · refine ⟨fun _ n hpin hfd hout => absurd ⟨hfd, hout⟩ (hnone n hpin), fun _ _ hzero => ?_⟩
    rw [hr] at hzero
    exact absurd hzero (by decide)
  · constructor
    · intro _ k hk _ _ hstate hlevel
      obtain rfl := Option.some.inj (hpin.symm.trans hk)
      rcases hskip with heq | hno
      · exact absurd heq hstate
      · exact absurd hlevel hno
    · -- the write is left out where the level is known to be there
      intro _ hlevel _
      have heq := hskip.resolve_right fun hno => hno hlevel
      have hlast := (h n hfd).value hout (by rw [heq]; exact hlevel)
      rw [heq, ← (hsame n).value] at hlast
      exact ⟨n, hpin, hlast⟩
  · constructor
    · intro hcontract k hk _ _ _ _
      obtain rfl := Option.some.inj (hpin.symm.trans hk)
      obtain ⟨k, hk', hwanted⟩ := hcontract hlevel hr
      obtain rfl := Option.some.inj (hpin.symm.trans hk')
      rw [hvalue] at hwanted
      split at hwanted
      · rename_i hwritten
        exact Or.inl hwritten
      · exact Or.inr hwanted
    · intro hok _ _
      refine ⟨n, hpin, ?_⟩
      rw [hvalue]
      split
      · rfl
      · rename_i hfailed
        exact (hok n hpin hfd hout hstate hlevel).resolve_left hfailed

/-- Under agreement the good calls are the ones that do what they report. -/
theorem contract_iff (b : Board) (c : Call × Outcome) (h : Inv b) : Contract b c ↔ CallOk b c := by
  obtain ⟨call, o⟩ := c
  cases call with
  | setup aGpioNumber asOutput => exact setup_contract o aGpioNumber asOutput h
  | set aGpioNumber aState => exact set_contract o aGpioNumber aState h
  | get aGpioNumber => exact Iff.rfl

theorem new_inv (memory : CGpio) (writes : List Write) : Inv ⟨CGpio.new memory, writes⟩ :=
  fun _ hopen => absurd hopen (show ¬(0 : ℤ) ≤ -1 by decide)

/-- The calls of a run all do what they report exactly when they are all good. -/
theorem gpio_calls_keep (memory : CGpio) (writes : List Write) (calls : List (Call × Outcome)) :
    Every step Contract ⟨CGpio.new memory, writes⟩ calls ↔
      Every step CallOk ⟨CGpio.new memory, writes⟩ calls :=
  every_iff step_inv contract_iff calls (new_inv memory writes)

/-- All system calls succeed but the write to the value file. -/
def valueWriteFails : Outcome where
  access := true
  exportFd := 3
  exportWritten := true
  directionFd := 3
  directionWritten := true
  valueFd := 3
  valueWritten := false
  read := none
  strerror := "Input/output error"

/-- A set whose write fails reports success, and so does a setup of an open pin in the
other direction. -/
theorem failed_write_reported :
    let b : Board := ⟨CGpio.new ⟨fun _ => ⟨0, 0, false⟩, ""⟩, []⟩
    let opened := step b (.setup 5 true, valueWriteFails)
    let high : Call × Outcome := (.set 5 gpioStateHigh, valueWriteFails)
    let input : Call × Outcome := (.setup 5 false, valueWriteFails)
    let n : Fin numOfGpio := ⟨5, by decide⟩
    (call opened high).1 = 0 ∧ lastWritten (step opened high).writes (.value n) = none ∧
      (call opened input).1 = 0 ∧
      lastWritten (step opened input).writes (.direction n) = some "out" ∧
      ¬Every step Contract b [(.setup 5 true, valueWriteFails), high] := by
  refine ⟨by decide +kernel, by decide +kernel, by decide +kernel, by decide +kernel, ?_⟩
  rintro ⟨_, hset, _⟩
  obtain ⟨n, hn, hlast⟩ := hset (Or.inr rfl) (by decide +kernel)
  have hpin : pin 5 = some ⟨5, by decide⟩ := by decide
  obtain rfl := Option.some.inj (hpin.symm.trans hn)
  exact absurd hlast (by decide +kernel)

end Iot7688.Gpio
