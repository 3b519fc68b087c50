import Iot7688.Lib.Run
import Mathlib.Data.List.Infix

/-!
The serial port class of the test program. A descriptor stands for the port it is open
on. The settings that a port had when it was opened are kept behind one pointer, which
all objects share. A call for one control line keeps the others only when it does not
switch off, or when they are off.
-/
namespace Iot7688.Serial

open Lib

structure Termios where
  cIflag : ℕ
  cOflag : ℕ
  cCflag : ℕ
  cLflag : ℕ
  cCc : ℕ → ℕ

def cs7 : ℕ := 0x20
def cs8 : ℕ := 0x30
def cstopb : ℕ := 0x40
def cread : ℕ := 0x80
def parenb : ℕ := 0x100
def parodd : ℕ := 0x200
def clocal : ℕ := 0x800
def ignpar : ℕ := 4
def b9600 : ℕ := 13

structure TBaudTable where
  str : String
  baudValue : ℕ
  baudShow : ℕ

def kBaudTable : List TBaudTable :=
  [⟨"1200", 9, 1200⟩, ⟨"2400", 11, 2400⟩, ⟨"4800", 12, 4800⟩, ⟨"9600", b9600, 9600⟩,
    ⟨"14400", 14400, 14400⟩, ⟨"19200", 14, 19200⟩, ⟨"28800", 28800, 28800⟩,
    ⟨"38400", 15, 38400⟩, ⟨"57600", 4097, 57600⟩, ⟨"115200", 4098, 115200⟩]

structure TModeTable where
  str : String
  modeValue : ℕ

def kModeTable : List TModeTable :=
  [⟨"N81", cs8⟩, ⟨"E81", cs8 ||| parenb⟩, ⟨"O81", cs8 ||| parenb ||| parodd⟩,
    ⟨"N71", cs7⟩, ⟨"E71", cs7 ||| parenb⟩, ⟨"O71", cs7 ||| parenb ||| parodd⟩,
    ⟨"N82", cs8 ||| cstopb⟩, ⟨"E82", cs8 ||| parenb ||| cstopb⟩,
    ⟨"O82", cs8 ||| parenb ||| parodd ||| cstopb⟩,
    ⟨"N72", cs7 ||| cstopb⟩, ⟨"E72", cs7 ||| parenb ||| cstopb⟩,
    ⟨"O72", cs7 ||| parenb ||| parodd ||| cstopb⟩,
    ⟨"8N1", cs8⟩, ⟨"8E1", cs8 ||| parenb⟩, ⟨"8O1", cs8 ||| parenb ||| parodd⟩,
    ⟨"7N1", cs7⟩, ⟨"7E1", cs7 ||| parenb⟩, ⟨"7O1", cs7 ||| parenb ||| parodd⟩,
    ⟨"8N2", cs8 ||| cstopb⟩, ⟨"8E2", cs8 ||| parenb ||| cstopb⟩,
    ⟨"8O2", cs8 ||| parenb ||| parodd ||| cstopb⟩,
    ⟨"7N2", cs7 ||| cstopb⟩, ⟨"7E2", cs7 ||| parenb ||| cstopb⟩,
    ⟨"7O2", cs7 ||| parenb ||| parodd ||| cstopb⟩]

def searchCfg (aCfg aStr : String) : Bool := decide (aStr.toList <:+: aCfg.toList)

/-- What strncpy keeps, with a terminator behind it. -/
def strncpy (size : ℕ) (s : String) : String := String.ofList (s.toList.take (size - 1))

variable {Port : Type*}

structure CSerial (Port : Type*) where
  portName : String
  baudRate : ℕ
  mode : String
  errorMessage : String
  fdComPort : Option Port

/-- The constructor. -/
def CSerial.new : CSerial Port where
  portName := "COM1"
  baudRate := 9600
  mode := "N81"
  errorMessage := ""
  fdComPort := none

/-- The objects, the shared pointer to saved settings, and the settings of the ports. -/
structure World (Port : Type*) where
  objects : ℕ → CSerial Port
  gOldTio : Option Termios
  termios : Port → Termios

/-- The outcomes of the system calls that a call may make; memory is what the new
struct termios holds when tcgetattr does not fill it. -/
structure Outcome where
  opened : Bool
  tcgetattr : Bool
  memory : Termios
  tcsetattr : Bool
  strerror : String

namespace World

variable [DecidableEq Port] (w : World Port)

def setObject (k : ℕ) (c : CSerial Port) : World Port :=
  { w with objects := Function.update w.objects k c }

/-- tcsetattr, which may fail. -/
def tcsetattr (done : Bool) (fd : Port) (tio : Termios) : World Port :=
  if done then { w with termios := Function.update w.termios fd tio } else w

end World

/-- The settings for a configuration. -/
def newTio (aCfg : String) : Termios where
  cCflag :=
    (((kBaudTable.find? fun row => searchCfg aCfg row.str).map TBaudTable.baudValue).getD b9600) |||
      (((kModeTable.find? fun row => searchCfg aCfg row.str).map TModeTable.modeValue).getD cs8) |||
      clocal ||| cread
  cIflag := ignpar
  cOflag := 0
  cLflag := 0
  cCc := fun _ => 0

section

variable [DecidableEq Port] (port : String → Port)

def openPort (o : Outcome) (w : World Port) (k : ℕ) (aPortName aCfg : String) : ℤ × World Port :=
  let c := { w.objects k with errorMessage := "", portName := strncpy 64 aPortName }
  match c.fdComPort with
  | some _ => (-1, w.setObject k { c with errorMessage := "CSerial: Already opened." })
  | none =>
      if o.opened then
        let fd := port c.portName
        let saved := if o.tcgetattr then w.termios fd else o.memory
        let baud := kBaudTable.find? fun row => searchCfg aCfg row.str
        let mode := kModeTable.find? fun row => searchCfg aCfg row.str
        let c := { c with
          fdComPort := some fd
          baudRate := (baud.map TBaudTable.baudShow).getD c.baudRate
          mode := (mode.map TModeTable.str).getD c.mode }
        (0, { (w.setObject k c).tcsetattr o.tcsetattr fd (newTio aCfg) with gOldTio := some saved })
      else
        (-1, w.setObject k { c with errorMessage := strncpy 128 ("CSerial: " ++ o.strerror) })

def closePort (o : Outcome) (w : World Port) (k : ℕ) : World Port :=
  match (w.objects k).fdComPort with
  | none => w
  | some fd =>
      let w := match w.gOldTio with
        | some tio => { w.tcsetattr o.tcsetattr fd tio with gOldTio := none }
        | none => w
      w.setObject k { w.objects k with fdComPort := none }

/-- The destructor closes the port, too. -/
inductive Call
  | openPort (k : ℕ) (aPortName aCfg : String)
  | closePort (k : ℕ)

def step (w : World Port) : Call × Outcome → World Port
  | (.openPort k aPortName aCfg, o) => (openPort port o w k aPortName aCfg).2
  | (.closePort k, o) => closePort o w k

/-- An open or close that took effect. An open comes with the port, the settings that
the port had, and whether they could be read. -/
inductive Event (Port : Type*)
  | opened (k : ℕ) (fd : Port) (before : Termios) (read : Bool)
  | closed (k : ℕ)

/-- A run is watched: its events, the newest first. -/
structure Watch (Port : Type*) where
  world : World Port
  events : List (Event Port)

def event (w : World Port) : Call × Outcome → Option (Event Port)
  | (.openPort k aPortName _, o) =>
      let fd := port (strncpy 64 aPortName)
      if (w.objects k).fdComPort.isNone && o.opened then
        some (.opened k fd (w.termios fd) o.tcgetattr)
      else none
  | (.closePort k, _) => if (w.objects k).fdComPort.isSome then some (.closed k) else none

def next (s : Watch Port) (c : Call × Outcome) : Watch Port :=
  ⟨step port s.world c, (event port s.world c).toList ++ s.events⟩

/-- The port that an object was last opened on, and its settings at that time. -/
def openedWith (k : ℕ) : List (Event Port) → Option (Port × Termios)
  | [] => none
  | .opened j fd before _ :: events => if j = k then some (fd, before) else openedWith k events
  | .closed _ :: events => openedWith k events

/-- The port that the saved settings come from, when there are any. -/
def savedFrom : List (Event Port) → Option Port
  | .opened _ fd _ _ :: _ => some fd
  | _ => none

/-- A close of an open object leaves its port with the settings it had when the object
opened it, and the settings it applies were saved from no other port. -/
def Restores (s : Watch Port) (c : Call × Outcome) : Prop :=
  match c.1 with
  | .openPort _ _ _ => True
  | .closePort k => ∀ fd, (s.world.objects k).fdComPort = some fd →
      ∃ before, openedWith k s.events = some (fd, before) ∧
        (step port s.world c).termios fd = before ∧ ∀ fd' ∈ savedFrom s.events, fd' = fd

/-- The last event is the opening of the object itself, and the settings could be read
then and can be written now. -/
def CloseOk (s : Watch Port) (c : Call × Outcome) : Prop :=
  match c.1 with
  | .openPort _ _ _ => True
  | .closePort k => (s.world.objects k).fdComPort.isSome = true →
      c.2.tcsetattr = true ∧ ∃ fd before, s.events.head? = some (.opened k fd before true)

/-- What the pointer and the descriptors have to do with the events. -/
structure Inv (s : Watch Port) : Prop where
  pointer : s.world.gOldTio.isSome = (savedFrom s.events).isSome
  saved : ∀ k fd before, s.events.head? = some (.opened k fd before true) →
    s.world.gOldTio = some before
  fds : ∀ k fd, (s.world.objects k).fdComPort = some fd →
    ∃ before, openedWith k s.events = some (fd, before)

theorem openPort_cases (o : Outcome) (w : World Port) (k : ℕ) (aPortName aCfg : String) :
    let w' := (openPort port o w k aPortName aCfg).2
    let fd := port (strncpy 64 aPortName)
    (event port w (.openPort k aPortName aCfg, o) = none ∧ w'.gOldTio = w.gOldTio ∧
      ∀ j, (w'.objects j).fdComPort = (w.objects j).fdComPort) ∨
    (event port w (.openPort k aPortName aCfg, o) =
        some (.opened k fd (w.termios fd) o.tcgetattr) ∧
      w'.gOldTio.isSome = true ∧ (o.tcgetattr = true → w'.gOldTio = some (w.termios fd)) ∧
      (w'.objects k).fdComPort = some fd ∧
      ∀ j, j ≠ k → (w'.objects j).fdComPort = (w.objects j).fdComPort) := by
  unfold openPort event
  dsimp only
  cases hfd : (w.objects k).fdComPort with
  | some fd =>
    refine Or.inl ⟨rfl, rfl, fun j => ?_⟩
    by_cases hj : j = k
    · subst hj
      simp [World.setObject, hfd]
    · simp [World.setObject, Function.update_of_ne hj]
  | none =>
    dsimp only
    cases hopened : o.opened with
    | false =>
      refine Or.inl ⟨rfl, rfl, fun j => ?_⟩
      by_cases hj : j = k
      · subst hj
        simp [World.setObject, hfd]
      · simp [World.setObject, Function.update_of_ne hj]
    | true =>
      refine Or.inr ⟨rfl, rfl, fun hread => ?_, ?_, fun j hj => ?_⟩
      · simp [hread]
      · cases o.tcsetattr <;> simp [World.setObject, World.tcsetattr]
      · cases o.tcsetattr <;> simp [World.setObject, World.tcsetattr, Function.update_of_ne hj]

theorem closePort_cases (o : Outcome) (w : World Port) (k : ℕ) :
    let w' := closePort o w k
    ((w.objects k).fdComPort = none ∧ event port w (.closePort k, o) = none ∧ w' = w) ∨
    (∃ fd, (w.objects k).fdComPort = some fd ∧ event port w (.closePort k, o) = some (.closed k) ∧
      w'.gOldTio = none ∧ (w'.objects k).fdComPort = none ∧
      (∀ j, j ≠ k → (w'.objects j).fdComPort = (w.objects j).fdComPort) ∧
      ∀ tio, w.gOldTio = some tio → o.tcsetattr = true → w'.termios fd = tio) := by
  unfold closePort event
  dsimp only
  cases hfd : (w.objects k).fdComPort with
  | none => exact Or.inl ⟨rfl, rfl, rfl⟩
  | some fd =>
    refine Or.inr ⟨fd, rfl, rfl, ?_, by simp [World.setObject], fun j hj => ?_,
      fun tio htio hset => ?_⟩
    · cases hsaved : w.gOldTio <;> simp [World.setObject, hsaved]
    · cases w.gOldTio <;> cases o.tcsetattr <;>
        simp [World.setObject, World.tcsetattr, Function.update_of_ne hj]
    · simp [World.setObject, World.tcsetattr, htio, hset]

/-- A call keeps what the pointer and the descriptors have to do with the events. -/
theorem next_inv (s : Watch Port) (c : Call × Outcome) (h : Inv s) : Inv (next port s c) := by
  obtain ⟨call, o⟩ := c
  cases call with
  | openPort k aPortName aCfg =>
    rcases openPort_cases port o s.world k aPortName aCfg with ⟨hevent, hsaved, hfds⟩ |
      ⟨hevent, hsome, hsaved, hown, hfds⟩
    · have hevents : (next port s (.openPort k aPortName aCfg, o)).events = s.events := by
        unfold next
        rw [hevent]
        rfl
      refine ⟨?_, fun j fd before hhead => ?_, fun j fd hfd => ?_⟩
      · rw [hevents]
        exact (congrArg Option.isSome hsaved).trans h.pointer
      · rw [hevents] at hhead
        exact hsaved.trans (h.saved j fd before hhead)
      · rw [hevents]
        exact h.fds j fd ((hfds j).symm.trans hfd)
    · have hevents : (next port s (.openPort k aPortName aCfg, o)).events =
          .opened k (port (strncpy 64 aPortName))
            (s.world.termios (port (strncpy 64 aPortName))) o.tcgetattr :: s.events := by
        unfold next
        rw [hevent]
        rfl
      refine ⟨?_, fun j fd before hhead => ?_, fun j fd hfd => ?_⟩
      · rw [hevents]
        exact hsome
      · rw [hevents, List.head?_cons] at hhead
        obtain ⟨-, -, rfl, hread⟩ := Event.opened.inj (Option.some.inj hhead)
        exact hsaved hread
      · rw [hevents]
        unfold openedWith
        by_cases hj : k = j
        · subst hj
          rw [if_pos rfl]
          obtain rfl := Option.some.inj (hown.symm.trans hfd)
          exact ⟨_, rfl⟩
        · rw [if_neg hj]
          exact h.fds j fd ((hfds j (Ne.symm hj)).symm.trans hfd)
  | closePort k =>
    rcases closePort_cases port o s.world k with ⟨_, hevent, hsame⟩ |
      ⟨fd, hfd, hevent, hnone, hown, hfds, _⟩
    · have hnext : next port s (.closePort k, o) = s := by
        unfold next step
        rw [hevent]
        show Watch.mk (closePort o s.world k) ([] ++ s.events) = s
        rw [hsame]
        rfl
      rw [hnext]
      exact h
    · have hevents : (next port s (.closePort k, o)).events = .closed k :: s.events := by
        unfold next
        rw [hevent]
        rfl
      refine ⟨?_, fun j fd' before hhead => ?_, fun j fd' hfd' => ?_⟩
      · rw [hevents]
        exact congrArg Option.isSome hnone
      · rw [hevents, List.head?_cons] at hhead
        exact absurd (Option.some.inj hhead) (by simp)
      · rw [hevents]
        unfold openedWith
        have hne : j ≠ k := by
          rintro rfl
          exact absurd (hown.symm.trans hfd') (by simp)
        exact h.fds j fd' ((hfds j hne).symm.trans hfd')

/-- A close right after the opening restores the port. -/
theorem closeOk_restores (s : Watch Port) (c : Call × Outcome) (h : Inv s)
    (hok : CloseOk s c) : Restores port s c := by
  obtain ⟨call, o⟩ := c
  cases call with
  | openPort k aPortName aCfg => trivial
  | closePort k =>
    intro fd hfd
    obtain ⟨hset, fd', before, hhead⟩ := hok (Option.isSome_iff_exists.mpr ⟨fd, hfd⟩)
    obtain ⟨before', hopened⟩ := h.fds k fd hfd
    obtain ⟨events, hevents⟩ : ∃ events, s.events = .opened k fd' before true :: events :=
      ⟨_, List.eq_cons_of_mem_head? hhead⟩
    have hown : openedWith k s.events = some (fd', before) := by
      rw [hevents]
      unfold openedWith
      rw [if_pos rfl]
    obtain ⟨rfl, rfl⟩ := Prod.mk.inj (Option.some.inj (hopened.symm.trans hown))
    refine ⟨before', hopened, ?_, fun fd' hfd' => ?_⟩
    · rcases closePort_cases port o s.world k with ⟨hnone, _⟩ | ⟨fd', hfd', _, _, _, _, htio⟩
      · exact absurd (hfd.symm.trans hnone) (by simp)
      · obtain rfl := Option.some.inj (hfd.symm.trans hfd')
        exact htio before' (h.saved k fd before' hhead) hset
    · rw [hevents] at hfd'
      exact (Option.some.inj hfd').symm

/-- Nothing is open. -/
def start (termios : Port → Termios) : Watch Port := ⟨⟨fun _ => CSerial.new, none, termios⟩, []⟩

/-- In every run, a close of an object whose opening is the last event restores the
port of the object. -/
theorem closePort_restores (termios : Port → Termios) (calls : List (Call × Outcome)) :
    Every (next port) (fun s c => CloseOk s c → Restores port s c) (start termios) calls :=
  every_of_inv (next_inv port) (closeOk_restores port) calls
    ⟨rfl, fun _ _ _ h => absurd h (by simp [start]),
      fun _ _ h => absurd h (by simp [start, CSerial.new])⟩

end

/-- All system calls succeed. -/
def allDone : Outcome := ⟨true, true, ⟨0, 0, 0, 0, fun _ => 0⟩, true, ""⟩

/-- Two ports with settings that differ in the control flags. -/
def twoPorts (path : String) : Termios :=
  ⟨0, 0, if path = "/dev/ttyS0" then 1 else 2, 0, fun _ => 0⟩

/-- The test of the two UARTs: the first gets the settings of the second, and the second
keeps the ones it was opened with. -/
theorem two_ports_mixed :
    let calls : List (Call × Outcome) :=
      [(.openPort 0 "/dev/ttyS0" "115200 N81", allDone),
        (.openPort 1 "/dev/ttyS1" "115200 N81", allDone),
        (.closePort 0, allDone), (.closePort 1, allDone)]
    let closed := calls.foldl (next id) (start twoPorts)
    (closed.world.termios "/dev/ttyS0").cCflag = 2 ∧
      (closed.world.termios "/dev/ttyS1").cCflag = 4098 ||| cs8 ||| clocal ||| cread ∧
      ¬Every (next id) (Restores id) (start twoPorts) calls := by
  refine ⟨by decide +kernel, by decide +kernel, ?_⟩
  rintro ⟨_, _, hclose, _⟩
  obtain ⟨before, hbefore, hrestored, _⟩ := hclose "/dev/ttyS0" (by decide +kernel)
  have hflag := congrArg (Option.map fun r => r.2.cCflag) hbefore
  rw [Option.map_some, ← hrestored] at hflag
  exact absurd hflag (by decide +kernel)

abbrev Status := BitVec 32

def tiocmDtr : Status := 0x002
def tiocmRts : Status := 0x004

/-- `!x` of C. -/
def lnot (x : Status) : Status := if x = 0 then 1 else 0

/-- What TIOCMSET changes on a port; the two lines are among it. -/
structure Driver where
  drives : Status
  dtr : tiocmDtr &&& drives = tiocmDtr
  rts : tiocmRts &&& drives = tiocmRts

def Driver.tiocmset (d : Driver) (old status : Status) : Status :=
  (old &&& ~~~d.drives) ||| (status &&& d.drives)

inductive Line
  | dtr
  | rts
deriving DecidableEq

def Line.mask : Line → Status
  | .dtr => tiocmDtr
  | .rts => tiocmRts

/-- The place of the line in the status word. -/
def Line.bit : Line → ℕ
  | .dtr => 1
  | .rts => 2

section

variable {Port : Type*} [DecidableEq Port] (d : Driver) (c : CSerial Port)

/-- What dtr and rts have in common. -/
def CSerial.control (mask : Status) (modem : Port → Status) (aState : Bool) : Port → Status :=
  match c.fdComPort with
  | none => modem
  | some fd =>
      let status := modem fd
      let status := if aState then status ||| mask else status &&& lnot mask
      Function.update modem fd (d.tiocmset (modem fd) status)

def CSerial.dtr : (Port → Status) → Bool → Port → Status := c.control d tiocmDtr
def CSerial.rts : (Port → Status) → Bool → Port → Status := c.control d tiocmRts

structure LineCall where
  line : Line
  aState : Bool

def LineCall.run (call : LineCall) (modem : Port → Status) : Port → Status :=
  match call.line with
  | .dtr => c.dtr d modem call.aState
  | .rts => c.rts d modem call.aState

/-- The status words after some calls, the newest call first. -/
structure Lines (Port : Type*) where
  modem : Port → Status
  calls : List LineCall

def Lines.next (s : Lines Port) (call : LineCall) : Lines Port :=
  ⟨call.run d c s.modem, call :: s.calls⟩

/-- What the last call for a place of the status word asked for. -/
def lastState (i : ℕ) : List LineCall → Option Bool
  | [] => none
  | call :: calls => if call.line.bit = i then some call.aState else lastState i calls

/-- The lines are as they were last set, and all else is as it was. -/
def Kept (before : Status) (fd : Port) (s : Lines Port) : Prop :=
  ∀ i, (s.modem fd).getLsbD i = (lastState i s.calls).getD (before.getLsbD i)

/-- The call switches its line on, or no other line of the driver is on. -/
def KeepsOthers (fd : Port) (s : Lines Port) (call : LineCall) : Prop :=
  call.aState = true ∨ s.modem fd &&& d.drives &&& ~~~call.line.mask = 0

variable {d c}

theorem mask_getLsbD (l : Line) (i : ℕ) : l.mask.getLsbD i = decide (l.bit = i) := by
  have hsmall : ∀ i < 32, l.mask.getLsbD i = decide (l.bit = i) := by
    cases l <;> decide
  by_cases hi : i < 32
  · exact hsmall i hi
  · have hbit : l.bit ≠ i := by
      cases l <;> simp only [Line.bit] <;> omega
    rw [decide_eq_false hbit]
    exact BitVec.getLsbD_of_ge _ i (by omega)

theorem drives_bit (d : Driver) (l : Line) : d.drives.getLsbD l.bit = true := by
  have hdriven : l.mask &&& d.drives = l.mask := by
    cases l with
    | dtr => exact d.dtr
    | rts => exact d.rts
  have hbit := congrArg (fun w : Status => w.getLsbD l.bit) hdriven
  simpa [BitVec.getLsbD_and, mask_getLsbD] using hbit

theorem lnot_mask (l : Line) : lnot l.mask = 0 := by
  cases l <;> rfl

/-- One call, bit by bit: switching a line off takes all driven lines along. -/
theorem run_getLsbD {fd : Port} (hopen : c.fdComPort = some fd) (call : LineCall)
    (modem : Port → Status) (i : ℕ) :
    (call.run d c modem fd).getLsbD i =
      if call.aState then (modem fd).getLsbD i || decide (call.line.bit = i)
      else (modem fd).getLsbD i && !d.drives.getLsbD i := by
  have hcall : call.run d c modem fd = d.tiocmset (modem fd)
      (if call.aState then modem fd ||| call.line.mask else modem fd &&& lnot call.line.mask) := by
    obtain ⟨line, aState⟩ := call
    cases line <;> simp [LineCall.run, CSerial.dtr, CSerial.rts, CSerial.control, hopen, Line.mask]
  rw [hcall, Driver.tiocmset, lnot_mask]
  by_cases hi : i < 32
  · cases hstate : call.aState with
    | true =>
      have hown : call.line.bit = i → d.drives.getLsbD i = true := by
        rintro rfl
        exact drives_bit d call.line
      simp only [if_true, BitVec.getLsbD_or, BitVec.getLsbD_and, BitVec.getLsbD_not, mask_getLsbD, hi,
        decide_true, Bool.true_and]
      by_cases hline : call.line.bit = i
      · simp [hline, hown hline]
      · cases d.drives.getLsbD i <;> simp [hline]
    | false => simp [hi]
  · have hbit : call.line.bit ≠ i := by
      cases call.line <;> simp only [Line.bit] <;> omega
    have hout (w : Status) : w.getLsbD i = false := BitVec.getLsbD_of_ge w i (by omega)
    simp [hout, hbit]

omit [DecidableEq Port] in
theorem keepsOthers_iff {fd : Port} {s : Lines Port} {call : LineCall} :
    KeepsOthers d fd s call ↔ call.aState = true ∨
      ∀ i, call.line.bit ≠ i → (s.modem fd).getLsbD i = true → d.drives.getLsbD i = false := by
  refine or_congr_right ⟨fun hzero i hline hon => ?_, fun hoff => ?_⟩
  · have hbit := congrArg (fun w : Status => w.getLsbD i) hzero
    have hi : i < 32 := BitVec.lt_of_getLsbD hon
    simp only [BitVec.getLsbD_and, BitVec.getLsbD_not, mask_getLsbD, hi, hon, hline, decide_true,
      decide_false, Bool.true_and, Bool.not_false, Bool.and_true] at hbit
    simpa using hbit
  · apply BitVec.eq_of_getLsbD_eq
    intro i hi
    by_cases hline : call.line.bit = i
    · simp [mask_getLsbD, hline]
    · cases hon : (s.modem fd).getLsbD i with
      | false => simp [hon]
      | true => simp [hoff i hline hon]

/-- A call keeps the lines exactly when it is harmless for the others. -/
theorem next_kept_iff {fd : Port} (hopen : c.fdComPort = some fd) {before : Status}
    {s : Lines Port} (h : Kept before fd s) (call : LineCall) :
    Kept before fd (s.next d c call) ↔ KeepsOthers d fd s call := by
  have hbit (i : ℕ) : ((s.next d c call).modem fd).getLsbD i = _ := run_getLsbD hopen call s.modem i
  have hlast (i : ℕ) : (lastState i (s.next d c call).calls).getD (before.getLsbD i) =
      if call.line.bit = i then call.aState else (s.modem fd).getLsbD i := by
    rw [h i, Lines.next, lastState]
    split <;> rfl
  rw [keepsOthers_iff]
  constructor
  · intro hkept
    cases hstate : call.aState with
    | true => exact .inl rfl
    | false =>
      refine .inr fun i hline hon => ?_
      have hi := hkept i
      rw [hbit, hlast, hstate, if_neg hline, hon] at hi
      simpa using hi
  · intro hothers i
    rw [hbit, hlast]
    cases hstate : call.aState with
    | true =>
      by_cases hline : call.line.bit = i <;> simp [hline]
    | false =>
      rw [hstate] at hothers
      have hoff := hothers.resolve_left Bool.false_ne_true i
      by_cases hline : call.line.bit = i
      · subst hline
        simp [drives_bit]
      · cases hon : (s.modem fd).getLsbD i with
        | false => simp [hline]
        | true => simp [hline, hoff hline hon]

variable (d c)

/-- In every run on an open port, the lines are right after every call exactly when every
call is harmless for the others. -/
theorem lines_kept_iff (fd : Port) (hopen : c.fdComPort = some fd) (modem : Port → Status)
    (calls : List LineCall) :
    Every (Lines.next d c) (fun s call => Kept (modem fd) fd (s.next d c call)) ⟨modem, []⟩ calls ↔
      Every (Lines.next d c) (KeepsOthers d fd) ⟨modem, []⟩ calls :=
  every_iff (fun _ call h => (next_kept_iff hopen h call).mpr)
    (fun _ call h => next_kept_iff hopen h call) calls fun _ => rfl

end

/-- DTR, RTS, OUT1, OUT2 and LOOP, as the serial core of Linux has it. -/
def serialCore : Driver := ⟨0xe006, by decide, by decide⟩

def ttyS0 : CSerial Unit := { (CSerial.new : CSerial Unit) with fdComPort := some () }

/-- With both lines on, dtr (false) switches RTS off, too. -/
theorem dtr_switches_rts_off :
    (ttyS0.dtr serialCore (fun _ => 0x106) false ()).getLsbD Line.rts.bit = false ∧
      ¬Every (Lines.next serialCore ttyS0)
        (fun s call => Kept 0x106 () (s.next serialCore ttyS0 call)) ⟨fun _ => 0x106, []⟩
        [⟨.dtr, false⟩] := by
  refine ⟨by decide, fun h => ?_⟩
  exact absurd (h.1 Line.rts.bit) (by decide)

theorem lines_kept_iff_on :
    Every (Lines.next serialCore ttyS0)
        (fun s call => Kept 0x100 () (s.next serialCore ttyS0 call)) ⟨fun _ => 0x100, []⟩
        [⟨.dtr, true⟩, ⟨.rts, true⟩] ↔
      Every (Lines.next serialCore ttyS0) (KeepsOthers serialCore ()) ⟨fun _ => 0x100, []⟩
        [⟨.dtr, true⟩, ⟨.rts, true⟩] :=
  lines_kept_iff serialCore ttyS0 () rfl (fun _ => 0x100) _

end Iot7688.Serial
