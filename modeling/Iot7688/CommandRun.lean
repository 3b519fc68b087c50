import Iot7688.CommandLine
import Iot7688.Lib.Words

/-!
The loop of run_command over the tokens of a line, and parse_line on the memory of the line.
The commands and the environment they change are parameters. Nothing tests the argument
count before the lookup, so a token without a word looks up a missing name; the loop is
compared with one that skips such tokens. parse_line at its limit leaves the array as it was
behind the last argument, whether words are left over or only blanks.
-/
namespace Iot7688.CommandLine

open Lib

/-- An entry of the command table. -/
structure Command (W : Type) where
  name : List Byte
  maxargs : ℕ
  repeatable : ℕ
  cmd : ℕ → List (List Byte) → W → ℤ × W

/-- What run_command finds around it, in a world W that the commands change: the
environment, the old bytes of its buffer and those behind it, and the interrupt flag. -/
structure Board (W : Type) where
  table : List (Command W)
  environ : W → Environ
  finaltoken : W → Mem
  behind : W → List Byte
  clearCtrlc : W → W
  hadCtrlc : W → Bool

/-- The state of the loop. -/
structure Loop (W : Type) where
  rc : ℤ
  repeatable : ℕ
  world : W

/-- The value returned, or the lookup of a missing name, which strchr reads. -/
inductive Outcome (W : Type)
  | returned (rc : ℤ) (world : W)
  | noName (world : W)

section

variable {W : Type}

/-- The loop over the table, from the entry last found and their number on. -/
def findLoop (key : List Byte) : List (Command W) → Option (Command W) → ℕ → Option (Command W)
  | [], found, nFound => if nFound = 1 then found else none
  | cmdtp :: table, found, nFound =>
      if key <+: cmdtp.name then
        if key.length = cmdtp.name.length then some cmdtp
        else findLoop key table (some cmdtp) (nFound + 1)
      else findLoop key table found nFound

/-- Names are compared until the first dot, and may be abbreviated. -/
def findCmd (table : List (Command W)) (cmd : List Byte) : Option (Command W) :=
  findLoop (cmd.takeWhile (· != 0x2e)) table none 0

variable (board : Board W) (flag : ℕ)

/-- The text of a token, as parse_line reads it. -/
def Board.line (token : List Byte) (w : W) : List Byte :=
  finalString (processMacros (board.environ w) token (board.finaltoken w)) (board.behind w)

/-- A token with a name: whether the user stopped it, and the state after it. -/
def execute (name : List Byte) (args : List (List Byte)) (l : Loop W) : Bool × Loop W :=
  match findCmd board.table name with
  | none => (false, { l with rc := -1 })
  | some cmdtp =>
      if cmdtp.maxargs < (name :: args).length then (false, { l with rc := -1 })
      else
        let r := cmdtp.cmd flag (name :: args) l.world
        (board.hadCtrlc r.2,
          ⟨if r.1 ≠ 0 then -1 else l.rc, l.repeatable &&& cmdtp.repeatable, r.2⟩)

def Loop.result (l : Loop W) : Outcome W :=
  .returned (if l.rc ≠ 0 then l.rc else l.repeatable) l.world

/-- The loop of run_command. -/
def runTokens : List (List Byte) → Loop W → Outcome W
  | [], l => l.result
  | token :: rest, l =>
      match parseLine cfgMaxargs (board.line token l.world) with
      | [] => .noName l.world
      | name :: args =>
          let r := execute board flag name args l
          if r.1 then .returned 0 r.2.world else runTokens rest r.2

def runCommand (before : Byte) (cmd : Env.CStr) (w : W) : Outcome W :=
  let w := board.clearCtrlc w
  if cmd.bytes = [] then .returned (-1) w
  else if cfgCbsize ≤ cmd.bytes.length then .returned (-1) w
  else runTokens board flag (tokens before cmd.bytes) ⟨0, 1, w⟩

/-- The loop that skips a token without a word. -/
def skipTokens : List (List Byte) → Loop W → Outcome W
  | [], l => l.result
  | token :: rest, l =>
      match parseLine cfgMaxargs (board.line token l.world) with
      | [] => skipTokens rest l
      | name :: args =>
          let r := execute board flag name args l
          if r.1 then .returned 0 r.2.world else skipTokens rest r.2

def skipCommand (before : Byte) (cmd : Env.CStr) (w : W) : Outcome W :=
  let w := board.clearCtrlc w
  if cmd.bytes = [] then .returned (-1) w
  else if cfgCbsize ≤ cmd.bytes.length then .returned (-1) w
  else skipTokens board flag (tokens before cmd.bytes) ⟨0, 1, w⟩

/-- The tokens that are reached until the user stops a command, each with the world
at that time. -/
def reachedTokens : List (List Byte) → Loop W → List (List Byte × W)
  | [], _ => []
  | token :: rest, l =>
      (token, l.world) ::
        match parseLine cfgMaxargs (board.line token l.world) with
        | [] => reachedTokens rest l
        | name :: args =>
            let r := execute board flag name args l
            if r.1 then [] else reachedTokens rest r.2

def reached (before : Byte) (cmd : Env.CStr) (w : W) : List (List Byte × W) :=
  if cfgCbsize ≤ cmd.bytes.length then []
  else reachedTokens board flag (tokens before cmd.bytes) ⟨0, 1, board.clearCtrlc w⟩

/-- The text has a character other than blank and tab. -/
def HasWord (line : List Byte) : Prop := ∃ c ∈ line, isBlank c = false

end

theorem parseLine_eq_nil_iff (line : List Byte) :
    parseLine cfgMaxargs line = [] ↔ ¬HasWord line := by
  have hblank : line.dropWhile isBlank = [] ↔ ¬HasWord line := by
    rw [List.dropWhile_eq_nil_iff, HasWord]
    simp
  rw [← hblank]
  change parseLine (15 + 1) line = [] ↔ _
  rw [parseLine]
  cases line.dropWhile isBlank with
  | nil => simp
  | cons c cs =>
    dsimp only
    split <;> simp

variable {W : Type} (board : Board W) (flag : ℕ)

/-- The loop with skipping always returns. -/
theorem skipTokens_ne_noName (ts : List (List Byte)) (l : Loop W) (w : W) :
    skipTokens board flag ts l ≠ .noName w := by
  induction ts generalizing l with
  | nil => exact fun h => by cases h
  | cons token rest ih =>
    rw [skipTokens]
    split
    · exact ih l
    · dsimp only
      split
      · exact fun h => by cases h
      · exact ih _

/-- The loop agrees with skipping as long as each token it reaches has a word. -/
theorem runTokens_eq_skip_iff (ts : List (List Byte)) (l : Loop W) :
    runTokens board flag ts l = skipTokens board flag ts l ↔
      ∀ p ∈ reachedTokens board flag ts l, HasWord (board.line p.1 p.2) := by
  induction ts generalizing l with
  | nil =>
    rw [reachedTokens]
    exact iff_of_true rfl fun p hp => absurd hp List.not_mem_nil
  | cons token rest ih =>
    rw [runTokens, skipTokens, reachedTokens, List.forall_mem_cons]
    cases hline : parseLine cfgMaxargs (board.line token l.world) with
    | nil =>
      have hno := (parseLine_eq_nil_iff _).mp hline
      exact iff_of_false (fun h => skipTokens_ne_noName board flag rest l _ h.symm)
        fun h => hno h.1
    | cons name args =>
      have hword : HasWord (board.line token l.world) := by
        by_contra hno
        rw [(parseLine_eq_nil_iff _).mpr hno] at hline
        cases hline
      rw [and_iff_right hword]
      dsimp only
      by_cases hstop : (execute board flag name args l).1 = true
      · rw [if_pos hstop, if_pos hstop, if_pos hstop]
        exact iff_of_true rfl fun p hp => absurd hp List.not_mem_nil
      · rw [if_neg hstop, if_neg hstop, if_neg hstop]
        exact ih _

/-- A line is run as if tokens without a word were skipped, and no missing name is
looked up, exactly when every token that is reached leaves a word to look up. -/
theorem runCommand_skips_iff (before : Byte) (cmd : Env.CStr) (w : W) :
    (runCommand board flag before cmd w = skipCommand board flag before cmd w ∧
        ∀ w', runCommand board flag before cmd w ≠ .noName w') ↔
      ∀ p ∈ reached board flag before cmd w, HasWord (board.line p.1 p.2) := by
  unfold runCommand skipCommand reached
  dsimp only
  by_cases hempty : cmd.bytes = []
  · rw [if_pos hempty, if_pos hempty, hempty, tokens]
    simp [reachedTokens]
  rw [if_neg hempty, if_neg hempty]
  by_cases hlong : cfgCbsize ≤ cmd.bytes.length
  · rw [if_pos hlong, if_pos hlong, if_pos hlong]
    simp
  rw [if_neg hlong, if_neg hlong, if_neg hlong, ← runTokens_eq_skip_iff]
  refine ⟨And.left, fun heq => ⟨heq, fun w' => ?_⟩⟩
  rw [heq]
  exact skipTokens_ne_noName board flag _ _ _

/-- No commands, and an empty environment. -/
def bareBoard : Board Unit where
  table := []
  environ _ := ⟨fun _ => none, fun _ _ h => by cases h⟩
  finaltoken _ _ := 0
  behind _ := []
  clearCtrlc := id
  hadCtrlc _ := false

/-- The command " " looks up a missing name, where skipping returns 1. -/
theorem blank_command_noName :
    runCommand bareBoard 0 0 ⟨[0x20], by decide⟩ () = .noName () ∧
      skipCommand bareBoard 0 0 ⟨[0x20], by decide⟩ () = .returned 1 () := by
  have htokens : tokens 0 [0x20] = [[0x20]] := by
    simp [tokens, cutToken, toggled, apostrophe, semicolon]
  have hline : parseLine cfgMaxargs (bareBoard.line [0x20] ()) = [] := by decide +kernel
  unfold runCommand skipCommand
  rw [if_neg (by simp), if_neg (by decide), if_neg (by simp), if_neg (by decide), htokens,
    runTokens, skipTokens, hline]
  exact ⟨rfl, rfl⟩

/-- An array of pointers; none is NULL. -/
abbrev Argv := ℕ → Option ℕ

/-- What parse_line returns and leaves, and whether it printed that there are too many. -/
structure Parsed where
  argc : ℕ
  argv : Argv
  mem : Mem
  tooMany : Bool

/-- The outer loop of parse_line, with room for n more arguments and the string `line` at p. -/
def parseArgs : ℕ → ℕ → ℕ → List Byte → Argv → Mem → Parsed
  | 0, nargs, _, _, argv, mem => ⟨nargs, argv, mem, true⟩
  | n + 1, nargs, p, line, argv, mem =>
      let start := p + (line.takeWhile isBlank).length
      match line.dropWhile isBlank with
      | [] => ⟨nargs, Function.update argv nargs none, mem, false⟩
      | c :: cs =>
          let argv := Function.update argv nargs (some start)
          let stop := start + ((c :: cs).takeWhile fun c => !isBlank c).length
          match (c :: cs).dropWhile fun c => !isBlank c with
          | [] => ⟨nargs + 1, Function.update argv (nargs + 1) none, mem, false⟩
          | _ :: rest =>
              parseArgs n (nargs + 1) (stop + 1) rest argv (Function.update mem stop 0)

/-- The memory has the string s at p, with its NUL. -/
def Holds (mem : Mem) (p : ℕ) (s : List Byte) : Prop := ∀ i, i ≤ s.length → mem (p + i) = s.getD i 0

/-- The last character of the line belongs to a word. -/
def EndsInWord (line : List Byte) : Prop := ∃ c, line.getLast? = some c ∧ isBlank c = false

/-- The loop reaches the end of the line with room for n more arguments. -/
def Terminated (n : ℕ) (line : List Byte) : Prop :=
  (words isBlank line).length < n ∨ (words isBlank line).length = n ∧ EndsInWord line

/-- run_command does not run the line, as it does not run one with a wrong number of
arguments. -/
def Reported (line : List Byte) : Prop :=
  ∀ (W : Type) (board : Board W) (flag : ℕ) (l : Loop W) (name : List Byte) (args : List (List Byte)),
    parseLine cfgMaxargs line = name :: args →
      execute board flag name args l = (false, { l with rc := -1 })

/-- The words of a line in an array with a NULL behind them, whatever the array held; a line
with more words than the array takes is reported. -/
def Splits (line : Env.CStr) : Prop :=
  ∀ (mem : Mem) (p : ℕ) (argv : Argv), Holds mem p line.bytes →
    let r := parseArgs cfgMaxargs 0 p line.bytes argv mem
    r.argc ≤ cfgMaxargs ∧ r.argv r.argc = none ∧
      ((words isBlank line.bytes).length ≤ cfgMaxargs →
        r.argc = (words isBlank line.bytes).length ∧
          ∀ i w, (words isBlank line.bytes)[i]? = some w → ∃ q, r.argv i = some q ∧ Holds r.mem q w) ∧
      (cfgMaxargs < (words isBlank line.bytes).length → Reported line.bytes)

theorem holds_append {mem : Mem} {p : ℕ} {s s' : List Byte} (h : Holds mem p (s ++ s')) :
    Holds mem (p + s.length) s' := by
  intro i hi
  have hat := h (s.length + i) (by rw [List.length_append]; omega)
  rw [List.getD_append_right _ _ _ _ (Nat.le_add_right _ _), Nat.add_sub_cancel_left] at hat
  rw [Nat.add_assoc]
  exact hat

/-- A word is a string once the byte behind it is NUL. -/
theorem holds_word {mem mem' : Mem} {p : ℕ} {w rest : List Byte} (h : Holds mem p (w ++ rest))
    (hsame : ∀ i, i < w.length → mem' (p + i) = mem (p + i)) (hnul : mem' (p + w.length) = 0) :
    Holds mem' p w := by
  intro i hi
  rcases hi.eq_or_lt with rfl | hlt
  · rw [hnul, List.getD_eq_default _ _ (Nat.le_refl _)]
  · rw [hsame i hlt, h i (by rw [List.length_append]; omega), List.getD_append _ _ _ _ hlt]

/-- The string behind the byte that becomes a NUL. -/
theorem holds_behind {mem : Mem} {p : ℕ} {front w rest : List Byte} {d : Byte}
    (h : Holds mem p (front ++ w ++ d :: rest)) :
    Holds (Function.update mem (p + front.length + w.length) 0) (p + front.length + w.length + 1)
      rest := by
  rw [← List.singleton_append, ← List.append_assoc] at h
  have hrest := holds_append h
  simp only [List.length_append, List.length_singleton, ← Nat.add_assoc] at hrest
  intro i hi
  rw [Function.update_of_ne (by omega)]
  exact hrest i hi

theorem endsInWord_append_cons (front : List Byte) {d : Byte} (hd : isBlank d = true)
    (rest : List Byte) : EndsInWord (front ++ d :: rest) ↔ EndsInWord rest := by
  unfold EndsInWord
  cases rest with
  | nil => simp [hd]
  | cons c rest => simp

theorem endsInWord_append (front : List Byte) {c : Byte} {cs : List Byte}
    (h : ∀ d ∈ c :: cs, isBlank d = false) : EndsInWord (front ++ c :: cs) := by
  refine ⟨(c :: cs).getLast (List.cons_ne_nil _ _), ?_, h _ (List.getLast_mem _)⟩
  rw [List.getLast?_append_of_ne_nil _ (List.cons_ne_nil _ _), List.getLast?_eq_some_getLast]

theorem not_terminated_zero (line : List Byte) : ¬Terminated 0 line := by
  rintro (h | ⟨h, c, hlast, hc⟩)
  · exact Nat.not_lt_zero _ h
  · have hblank := words_eq_nil_iff.mp (List.length_eq_zero_iff.mp h) c (List.mem_of_getLast? hlast)
    rw [hblank] at hc
    cases hc

section

variable {front w rest : List Byte} (n nargs p : ℕ) (argv : Argv) (mem : Mem)

theorem parseArgs_blanks (hfront : ∀ c ∈ front, isBlank c = true) :
    parseArgs (n + 1) nargs p front argv mem =
      ⟨nargs, Function.update argv nargs none, mem, false⟩ := by
  rw [parseArgs, List.dropWhile_eq_nil_iff.mpr hfront]

theorem span_blanks (hfront : ∀ c ∈ front, isBlank c = true) (hne : w ≠ [])
    (hw : ∀ c ∈ w, isBlank c = false) (rest : List Byte) :
    (front ++ w ++ rest).takeWhile isBlank = front ∧
      (front ++ w ++ rest).dropWhile isBlank = w ++ rest := by
  obtain ⟨c, cs, rfl⟩ := List.exists_cons_of_ne_nil hne
  have hc : ¬isBlank c = true := by simp [hw c (List.mem_cons_self ..)]
  rw [List.append_assoc, List.takeWhile_append_of_pos hfront, List.dropWhile_append_of_pos hfront,
    List.cons_append, List.takeWhile_cons_of_neg hc, List.dropWhile_cons_of_neg hc]
  exact ⟨List.append_nil _, rfl⟩

theorem span_word (hw : ∀ c ∈ w, isBlank c = false) (hrest : ∀ d ∈ rest.head?, isBlank d = true) :
    (w ++ rest).takeWhile (fun c => !isBlank c) = w ∧
      (w ++ rest).dropWhile (fun c => !isBlank c) = rest := by
  have hall : ∀ c ∈ w, (fun c => !isBlank c) c = true := fun c hc => by simp [hw c hc]
  rw [List.takeWhile_append_of_pos hall, List.dropWhile_append_of_pos hall]
  cases rest with
  | nil => exact ⟨List.append_nil _, rfl⟩
  | cons d rest =>
    have hd := hrest d rfl
    simp [hd]

/-- One turn of the loop over a word. -/
theorem parseArgs_word (hfront : ∀ c ∈ front, isBlank c = true) (hne : w ≠ [])
    (hw : ∀ c ∈ w, isBlank c = false) (hrest : ∀ d ∈ rest.head?, isBlank d = true) :
    parseArgs (n + 1) nargs p (front ++ w ++ rest) argv mem =
      let argv := Function.update argv nargs (some (p + front.length))
      let stop := p + front.length + w.length
      if rest = [] then ⟨nargs + 1, Function.update argv (nargs + 1) none, mem, false⟩
      else parseArgs n (nargs + 1) (stop + 1) (rest.drop 1) argv (Function.update mem stop 0) := by
  obtain ⟨hblanks, hbehind⟩ := span_blanks hfront hne hw rest
  obtain ⟨hword, hleft⟩ := span_word hw hrest
  rw [parseArgs]
  dsimp only
  rw [hblanks, hbehind]
  cases w with
  | nil => exact absurd rfl hne
  | cons c cs =>
    dsimp only [List.cons_append]
    rw [List.cons_append] at hword hleft
    rw [hword, hleft]
    cases rest <;> rfl

end

theorem terminated_last {front w : List Byte} (hfront : ∀ c ∈ front, isBlank c = true) (hne : w ≠ [])
    (hw : ∀ c ∈ w, isBlank c = false) (n : ℕ) : Terminated (n + 1) (front ++ w) := by
  have hwords : words isBlank (front ++ w) = [w] := by
    rw [words_seps_append hfront, words_run hne hw]
  obtain ⟨c, cs, rfl⟩ := List.exists_cons_of_ne_nil hne
  unfold Terminated
  rw [hwords, List.length_singleton]
  rcases Nat.eq_zero_or_pos n with rfl | hpos
  · exact Or.inr ⟨rfl, endsInWord_append front hw⟩
  · exact Or.inl (Nat.succ_lt_succ hpos)

/-- A word is cut off, and what is left of the line begins behind a blank. -/
theorem terminated_succ {front w : List Byte} (hfront : ∀ c ∈ front, isBlank c = true) (hne : w ≠ [])
    (hw : ∀ c ∈ w, isBlank c = false) {d : Byte} (hd : isBlank d = true) (n : ℕ) (rest : List Byte) :
    Terminated (n + 1) (front ++ w ++ d :: rest) ↔ Terminated n rest := by
  unfold Terminated
  rw [endsInWord_append_cons _ hd, List.append_assoc, words_seps_append hfront,
    words_run_sep hne hw hd, List.length_cons, Nat.succ_lt_succ_iff, Nat.succ_inj]

/-- What the loop leaves: the words that fit, and a NULL if it reached the end of the line. -/
structure ParsedAs (n nargs p : ℕ) (line : List Byte) (argv : Argv) (mem : Mem) (r : Parsed) :
    Prop where
  argc : r.argc = nargs + ((words isBlank line).take n).length
  before : ∀ i, i < nargs → r.argv i = argv i
  front : ∀ x, x < p → r.mem x = mem x
  strings : ∀ i w, ((words isBlank line).take n)[i]? = some w →
    ∃ q, r.argv (nargs + i) = some q ∧ Holds r.mem q w
  last : Terminated n line ∧ r.argv r.argc = none ∨ ¬Terminated n line ∧ r.argv r.argc = argv r.argc

theorem parsed_blanks {front : List Byte} (hfront : ∀ c ∈ front, isBlank c = true) (n nargs p : ℕ)
    (argv : Argv) (mem : Mem) :
    ParsedAs (n + 1) nargs p front argv mem
      ⟨nargs, Function.update argv nargs none, mem, false⟩ := by
  have hwords := words_eq_nil_iff.mpr hfront
  refine ⟨by rw [hwords]; rfl, fun i hi => Function.update_of_ne hi.ne _ _, fun _ _ => rfl,
    fun i w hw => ?_, Or.inl ⟨Or.inl ?_, Function.update_self ..⟩⟩
  · rw [hwords, List.take_nil, List.getElem?_nil] at hw
    cases hw
  · rw [hwords]
    exact Nat.succ_pos n

theorem parsed_last {front w : List Byte} (hfront : ∀ c ∈ front, isBlank c = true) (hne : w ≠ [])
    (hw : ∀ c ∈ w, isBlank c = false) (n nargs : ℕ) {p : ℕ} (argv : Argv) {mem : Mem}
    (h : Holds mem p (front ++ w)) :
    ParsedAs (n + 1) nargs p (front ++ w) argv mem
      ⟨nargs + 1, Function.update (Function.update argv nargs (some (p + front.length)))
        (nargs + 1) none, mem, false⟩ := by
  have hwords : (words isBlank (front ++ w)).take (n + 1) = [w] := by
    rw [words_seps_append hfront, words_run hne hw, List.take_succ_cons, List.take_nil]
  refine ⟨by rw [hwords]; rfl, fun i hi => ?_, fun _ _ => rfl, fun i v hv => ?_,
    Or.inl ⟨terminated_last hfront hne hw n, Function.update_self ..⟩⟩
  · dsimp only
    rw [Function.update_of_ne (by omega), Function.update_of_ne (by omega)]
  · rw [hwords] at hv
    obtain ⟨rfl, rfl⟩ : i = 0 ∧ v = w := by
      cases i with
      | zero => exact ⟨rfl, (Option.some.inj hv).symm⟩
      | succ i => cases hv
    refine ⟨p + front.length, ?_, holds_append h⟩
    dsimp only
    rw [Function.update_of_ne (by omega), Nat.add_zero, Function.update_self]

/-- The turn over a word and the turns behind it. -/
theorem ParsedAs.cons {front w : List Byte} (hfront : ∀ c ∈ front, isBlank c = true) (hne : w ≠ [])
    (hw : ∀ c ∈ w, isBlank c = false) {d : Byte} (hd : isBlank d = true) {n nargs p : ℕ}
    {rest : List Byte} {argv : Argv} {mem : Mem} (h : Holds mem p (front ++ w ++ d :: rest))
    {r : Parsed} (hr : ParsedAs n (nargs + 1) (p + front.length + w.length + 1) rest
      (Function.update argv nargs (some (p + front.length)))
      (Function.update mem (p + front.length + w.length) 0) r) :
    ParsedAs (n + 1) nargs p (front ++ w ++ d :: rest) argv mem r := by
  have hwords : words isBlank (front ++ w ++ d :: rest) = w :: words isBlank rest := by
    rw [List.append_assoc, words_seps_append hfront, words_run_sep hne hw hd]
  rw [List.append_assoc] at h
  have hword := holds_append h
  have hkept : ∀ x, x < p + front.length + w.length → r.mem x = mem x := fun x hx => by
    rw [hr.front x (by omega), Function.update_of_ne hx.ne]
  refine ⟨?_, fun i hi => ?_, fun x hx => hkept x (by omega), fun i v hv => ?_, ?_⟩
  · rw [hr.argc, hwords, List.take_succ_cons, List.length_cons]
    omega
  · rw [hr.before i (by omega), Function.update_of_ne hi.ne]
  · rw [hwords, List.take_succ_cons] at hv
    cases i with
    | zero =>
      obtain rfl := Option.some.inj hv
      refine ⟨p + front.length, ?_, holds_word hword (fun i hi => hkept _ (by omega)) ?_⟩
      · rw [Nat.add_zero, hr.before nargs (Nat.lt_succ_self _), Function.update_self]
      · rw [hr.front _ (Nat.lt_succ_self _), Function.update_self]
    | succ i =>
      rw [List.getElem?_cons_succ] at hv
      rw [← Nat.succ_add_eq_add_succ]
      exact hr.strings i v hv
  · rw [terminated_succ hfront hne hw hd]
    refine hr.last.imp_right fun hlast => ⟨hlast.1, ?_⟩
    rw [hlast.2, Function.update_of_ne (by rw [hr.argc]; omega)]

theorem parseArgs_parsed (n nargs : ℕ) {p : ℕ} {line : List Byte} (argv : Argv) {mem : Mem}
    (h : Holds mem p line) :
    ParsedAs n nargs p line argv mem (parseArgs n nargs p line argv mem) := by
  induction n generalizing nargs p line argv mem with
  | zero =>
    refine ⟨rfl, fun _ _ => rfl, fun _ _ => rfl, fun i w hw => ?_, Or.inr ⟨not_terminated_zero _, rfl⟩⟩
    rw [List.take_zero, List.getElem?_nil] at hw
    cases hw
  | succ n ih =>
    obtain hblanks | ⟨front, w, hfront, hne, hw, htext⟩ := cut_word isBlank line
    · rw [parseArgs_blanks n nargs p argv mem hblanks]
      exact parsed_blanks hblanks n nargs p argv mem
    · obtain rfl | ⟨d, rest, hd, rfl⟩ := htext
      · have hnone : ∀ e ∈ ([] : List Byte).head?, isBlank e = true := fun e he => by cases he
        have hstep := parseArgs_word n nargs p argv mem hfront hne hw hnone
        rw [List.append_nil] at hstep
        rw [hstep]
        exact parsed_last hfront hne hw n nargs argv h
      · have hrest : ∀ e ∈ (d :: rest).head?, isBlank e = true := fun e he => Option.some.inj he ▸ hd
        rw [parseArgs_word n nargs p argv mem hfront hne hw hrest]
        exact ParsedAs.cons hfront hne hw hd h (ih (nargs + 1) _ (holds_behind h))

/-- parse_line hands a line over as it should exactly when it reaches the end of the line with
room for one more argument, or right behind the last argument. -/
theorem parse_line_splits_iff (line : Env.CStr) :
    Splits line ↔ (words isBlank line.bytes).length < cfgMaxargs ∨
      (words isBlank line.bytes).length = cfgMaxargs ∧ EndsInWord line.bytes := by
  constructor
  · intro h
    let mem : Mem := fun i => line.bytes.getD i 0
    have hholds : Holds mem 0 line.bytes := fun i _ => by rw [Nat.zero_add]
    have hlast := (parseArgs_parsed cfgMaxargs 0 (fun _ => some 0) hholds).last
    rcases hlast with hlast | hlast
    · exact hlast.1
    · have hnull := (h mem 0 (fun _ => some 0) hholds).2.1
      rw [hlast.2] at hnull
      cases hnull
  · intro hend mem p argv hholds
    have hparsed := parseArgs_parsed cfgMaxargs 0 argv hholds
    have hle : (words isBlank line.bytes).length ≤ cfgMaxargs := by
      rcases hend with hlt | ⟨heq, _⟩
      · exact hlt.le
      · exact heq.le
    have hall := List.take_of_length_le hle
    have hargc := hparsed.argc
    rw [hall, Nat.zero_add] at hargc
    refine ⟨hargc.trans_le hle, ?_, fun _ => ⟨hargc, fun i w hw => ?_⟩,
      fun hlong => absurd hlong (Nat.not_lt.mpr hle)⟩
    · exact (hparsed.last.resolve_right fun hlast => hlast.1 hend).2
    · obtain ⟨q, hq, hstring⟩ := hparsed.strings i w (by rw [hall]; exact hw)
      exact ⟨q, by rwa [Nat.zero_add] at hq, hstring⟩

/-- Sixteen words and a blank behind the last one. -/
def fullLine : Env.CStr := ⟨(List.replicate cfgMaxargs [0x61, 0x20]).flatten, by decide +kernel⟩

/-- The array has no NULL behind the sixteen words. -/
theorem full_line_unterminated : ¬Splits fullLine := by
  intro h
  have hnull := (h (fun i => fullLine.bytes.getD i 0) 0 (fun _ => some 0)
    fun i _ => by rw [Nat.zero_add]).2.1
  revert hnull
  decide +kernel

end Iot7688.CommandLine
