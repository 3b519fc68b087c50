import Iot7688.Env
import Iot7688.Lib.CString

/-!
Entry c of the boot menu of board_init_r: lks7688.cfg is parsed in place for the network
name and key. A read through a null pointer and one behind the terminator have no result.
The environment is a map here, and setenv is taken to have room. A line without '=' ends
the loop, and a last line with '=' but without a newline leaves a null pointer.
-/
namespace Iot7688.BootConfig

open Lib

abbrev Str := List Byte

def newline : Byte := 0x0a
def equals : Byte := 0x3d

/-- The two names that are looked for. -/
inductive Var
  | ssid
  | key
deriving DecidableEq

def Var.name : Var → Str
  | .ssid => Env.ascii "wifi_ssid"
  | .key => Env.ascii "wifi_key"

def wifiSeq : Str := Env.ascii "wifi_seq"

inductive Fault
  | null
  | outside
deriving DecidableEq

/-- The buffer, the cursor s, and wifi_ssid and wifi_key; none is NULL. -/
structure Parse where
  mem : Mem
  s : Option ℕ
  vars : Var → Option ℕ

/-- The end of the line becomes a NUL, when there is one. -/
def cutLine (mem : Mem) : Option ℕ → Mem
  | some e => Function.update mem e 0
  | none => mem

/-- The body of the loop. -/
def parseLine (limit : ℕ) (t : Parse) (s : ℕ) : Except Fault Parse :=
  match strchr t.mem limit newline s with
  | none => .error .outside
  | some found =>
      let mem := cutLine t.mem found
      match strchr mem limit equals s with
      | none => .error .outside
      | some none => .ok { t with mem := Function.update mem s 0, s := some s }
      | some (some v) =>
          let mem := Function.update mem v 0
          match cstr mem limit s with
          | none => .error .outside
          | some name =>
              .ok
                { mem := mem
                  s := found.map (· + 1)
                  vars :=
                    if name = Var.ssid.name then Function.update t.vars .ssid (some (v + 1))
                    else if name = Var.key.name then Function.update t.vars .key (some (v + 1))
                    else t.vars }

/-- while (*s), with a bound on its passes. -/
def parseLoop (limit : ℕ) : ℕ → Parse → Option (Except Fault Parse)
  | 0, _ => none
  | fuel + 1, t =>
      match t.s with
      | none => some (.error .null)
      | some s =>
          if limit ≤ s then some (.error .outside)
          else if t.mem s = 0 then some (.ok t)
          else
            match parseLine limit t s with
            | .error f => some (.error f)
            | .ok t => parseLoop limit fuel t

/-- The cleared buffer with the file. -/
def load (c : Str) : Parse := ⟨fun i => c.getD i 0, some 0, fun _ => none⟩

def parse (c : Str) : Option (Except Fault Parse) := parseLoop (c.length + 1) (c.length + 2) (load c)

abbrev Environment := Str → Option Str

def setenv (env : Environment) (name value : Str) : Environment :=
  Function.update env name (some value)

def inRange : Var → Str → Bool
  | .ssid, value => value.length ≤ 32
  | .key, value => 8 ≤ value.length && value.length < 64

/-- Sets one of the variables; the flag is save. -/
def setVar (limit : ℕ) (t : Parse) (v : Var) (e : Environment × Bool) : Option (Environment × Bool) :=
  match t.vars v with
  | none => some e
  | some q =>
      match cstr t.mem limit q with
      | none => none
      | some value => if inRange v value then some (setenv e.1 v.name value, true) else some e

/-- id + 1 as %d prints it. -/
def nextSeq (seq : Option Str) : Str :=
  let id := match seq with
    | none => 0
    | some text => (Env.simpleStrtoul text 10).1
  Env.ascii (toString (BitVec.ofNat 32 (id + 1)).toInt)

/-- What follows the loop: the environment, and whether it is saved. -/
def apply (limit : ℕ) (t : Parse) (env : Environment) : Option (Environment × Bool) :=
  match setVar limit t .ssid (env, false) with
  | none => none
  | some e =>
      match setVar limit t .key e with
      | none => none
      | some e => if e.2 then some (setenv e.1 wifiSeq (nextSeq (e.1 wifiSeq)), true) else some e

/-- The line assigns a value to the name. -/
def Assigns (name line : Str) : Prop := name ++ [equals] <+: line

instance (name line : Str) : Decidable (Assigns name line) :=
  inferInstanceAs (Decidable (name ++ [equals] <+: line))

/-- Where the values for a name start in lines that stand from a place on. -/
def places (name : Str) : ℕ → List Str → List ℕ
  | _, [] => []
  | p, l :: ls =>
      (if Assigns name l then [p + name.length + 1] else []) ++ places name (p + l.length + 1) ls

/-- The text behind the first '=' of the last line with the name. -/
def lastPlace (v : Var) (c : Str) : Option ℕ := (places v.name 0 (c.splitOn newline)).getLast?

def valueAt (c : Str) (q : ℕ) : Str := (c.drop q).takeWhile fun b => b ≠ newline

/-- The value that is to be set, if any. -/
def chosen (v : Var) (c : Str) : Option Str := ((lastPlace v c).map (valueAt c)).filter (inRange v)

/-- The environment is changed for the values in range, with the number of the change. -/
structure Changes (c : Str) (env env' : Environment) (saved : Bool) : Prop where
  set : ∀ v : Var, env' v.name = (chosen v c).or (env v.name)
  frame : ∀ name, name ≠ Var.ssid.name → name ≠ Var.key.name → name ≠ wifiSeq → env' name = env name
  seq : env' wifiSeq = if saved then some (nextSeq (env wifiSeq)) else env wifiSeq
  saved_iff : saved = true ↔ ∃ v, chosen v c ≠ none

/-- The loop ends inside of the buffer with the pointers at the last values, and the
environment gets them. -/
def Configures (c : Str) (env : Environment) : Prop :=
  ∃ t, parse c = some (.ok t) ∧ (∀ v, t.vars v = lastPlace v c) ∧
    ∃ env' saved, apply (c.length + 1) t env = some (env', saved) ∧ Changes c env env' saved

/-- Some line has no '=', counting the empty one behind a last newline, and behind the
first such line neither name is assigned. -/
def EndsAtLine (c : Str) : Prop :=
  ∃ front l back, c.splitOn newline = front ++ l :: back ∧ (∀ x ∈ front, equals ∈ x) ∧ equals ∉ l ∧
    ∀ x ∈ back, ∀ v : Var, ¬Assigns v.name x

section

variable {c l front back name : Str} {m : Mem} {p q limit : ℕ} {t : Parse} {v : Var}
  {vars : Var → Option ℕ}

theorem name_no_equals (v : Var) : equals ∉ v.name := by
  cases v <;> decide

theorem assigns_iff (hname : equals ∉ name) (hfront : equals ∉ front) :
    Assigns name (front ++ equals :: back) ↔ front = name := by
  constructor
  · intro ⟨rest, hrest⟩
    have hsplit : name ++ equals :: rest = front ++ equals :: back := by
      rw [← hrest, List.append_assoc]
      rfl
    have hend {s u : Str} (hs : equals ∉ s) :
        (s ++ equals :: u).takeWhile (fun b => b ≠ equals) = s := by
      have hall : ∀ b ∈ s, decide (b ≠ equals) = true := fun b hb =>
        decide_eq_true fun heq : b = equals => hs (heq ▸ hb)
      rw [List.takeWhile_append_of_pos hall]
      simp
    rw [← hend hfront (u := back), ← hsplit, hend hname]
  · intro h
    rw [h]
    exact ⟨back, by rw [List.append_assoc]; rfl⟩

theorem not_assigns (h : equals ∉ l) (v : Var) : ¬Assigns v.name l := by
  intro ⟨rest, hrest⟩
  apply h
  rw [← hrest]
  simp

/-- The pointers behind a line that stands at a place. -/
def assigned (p : ℕ) (l : Str) (vars : Var → Option ℕ) : Var → Option ℕ :=
  fun v => if Assigns v.name l then some (p + v.name.length + 1) else vars v

/-- What the loop does with lines: it ends at the first one without '=', and behind the
last one its cursor is a null pointer. -/
def follow : ℕ → List Str → (Var → Option ℕ) → Except Fault (Var → Option ℕ)
  | _, [], vars => .ok vars
  | p, l :: ls, vars =>
      if equals ∈ l then
        if ls = [] then .error .null else follow (p + l.length + 1) ls (assigned p l vars)
      else .ok vars

/-- A pass over a line, once its end is a NUL. -/
theorem parseLine_eq {found : Option ℕ} (hfound : strchr t.mem limit newline p = some found)
    (hm : cutLine t.mem found = m) (htext : Text m p l) (hnul : 0 ∉ l)
    (hend : m (p + l.length) = 0) (hin : p + l.length < limit) :
    (equals ∉ l → parseLine limit t p =
      .ok { t with mem := Function.update m p 0, s := some p }) ∧
    (∀ front back, l = front ++ equals :: back → equals ∉ front → parseLine limit t p =
      .ok
        { mem := Function.update m (p + front.length) 0
          s := found.map (· + 1)
          vars := assigned p l t.vars }) := by
  unfold parseLine
  rw [hfound]
  dsimp only
  rw [hm]
  constructor
  · intro hno
    rw [strchr_absent htext hno hnul (by decide) hend hin]
  · rintro front back rfl hfront
    rw [List.mem_append, not_or] at hnul
    rw [text_append] at htext
    rw [List.length_append, List.length_cons] at hin
    have hname : cstr (Function.update m (p + front.length) 0) limit p = some front := by
      refine cstr_text (text_update (Or.inr le_rfl) htext.1) hnul.1 ?_ (by omega)
      exact Function.update_self ..
    rw [strchr_found htext.1 hfront hnul.1 htext.2.1 (by omega)]
    dsimp only
    rw [hname]
    dsimp only
    congr 2
    funext v
    unfold assigned
    rw [if_congr (assigns_iff (name_no_equals v) hfront) rfl rfl]
    by_cases hssid : front = Var.ssid.name
    · rw [if_pos hssid]
      cases v with
      | ssid => rw [Function.update_self, if_pos hssid, hssid]
      | key => rw [Function.update_of_ne (by decide), if_neg (by rw [hssid]; decide)]
    · rw [if_neg hssid]
      by_cases hkey : front = Var.key.name
      · rw [if_pos hkey]
        cases v with
        | ssid => rw [Function.update_of_ne (by decide), if_neg hssid]
        | key => rw [Function.update_self, if_pos hkey, hkey]
      · rw [if_neg hkey]
        cases v with
        | ssid => rw [if_neg hssid]
        | key => rw [if_neg hkey]

/-- A value stands in memory as a string that ends in front of a place. -/
structure Stands (c : Str) (m : Mem) (p q : ℕ) : Prop where
  text : Text m q (valueAt c q)
  nul : m (q + (valueAt c q).length) = 0
  before : q + (valueAt c q).length < p

/-- The state when the cursor is at a place: the rest of the file is still there, and the
pointers have their values. -/
structure At (c : Str) (p : ℕ) (t : Parse) : Prop where
  rest : ∀ i, p ≤ i → t.mem i = c.getD i 0
  values : ∀ v q, t.vars v = some q → Stands c t.mem p q

theorem stands_congr {m' : Mem} (h : Stands c m p q) (hsame : ∀ i, i < p → m' i = m i) :
    Stands c m' p q := by
  have hbefore := h.before
  exact ⟨text_congr (fun i _ hi => hsame i (by omega)) h.text, (hsame _ hbefore).trans h.nul, hbefore⟩

theorem stands_le {p' : ℕ} (h : Stands c m p q) (hle : p ≤ p') : Stands c m p' q :=
  ⟨h.text, h.nul, h.before.trans_le hle⟩

theorem getD_end (c : Str) : c.getD c.length 0 = 0 := by
  rw [List.getD_eq_getElem?_getD, List.getElem?_eq_none le_rfl]
  rfl

/-- The value behind the first '=' of a line. -/
theorem valueAt_line {done name value : Str} (hc : c = done ++ (name ++ equals :: value) ++ back)
    (hvalue : newline ∉ value) (hback : back = [] ∨ back.head? = some newline) :
    valueAt c (done.length + name.length + 1) = value := by
  have hdrop : c.drop (done.length + name.length + 1) = value ++ back := by
    have hfront : (done ++ name ++ [equals]).length = done.length + name.length + 1 := by
      simp
      omega
    have hwhole : c = (done ++ name ++ [equals]) ++ (value ++ back) := by
      rw [hc]
      simp
    rw [hwhole, ← hfront, List.drop_left]
  have hall : ∀ b ∈ value, decide (b ≠ newline) = true := fun b hb =>
    decide_eq_true fun heq : b = newline => hvalue (heq ▸ hb)
  rw [valueAt, hdrop, List.takeWhile_append_of_pos hall]
  rcases hback with rfl | hhead
  · simp
  · cases back with
    | nil => simp
    | cons b back =>
      obtain rfl := Option.some.inj hhead
      simp

theorem loop_stop {n : ℕ} (hs : t.s = some p) (hin : p < limit) (hzero : t.mem p = 0) :
    parseLoop limit (n + 1) t = some (.ok t) := by
  rw [parseLoop, hs]
  dsimp only
  rw [if_neg (by omega), if_pos hzero]

theorem loop_step {n : ℕ} {t' : Parse} (hs : t.s = some p) (hin : p < limit) (hmore : t.mem p ≠ 0)
    (hline : parseLine limit t p = .ok t') :
    parseLoop limit (n + 1) t = parseLoop limit n t' := by
  rw [parseLoop, hs]
  dsimp only
  rw [if_neg (by omega), if_neg hmore, hline]

/-- The strings that the pointers lead to when the loop has ended. -/
def Strings (c : Str) (t : Parse) : Prop :=
  ∀ v q, t.vars v = some q → cstr t.mem (c.length + 1) q = some (valueAt c q)

theorem valueAt_no_nul (hnul : 0 ∉ c) (q : ℕ) : 0 ∉ valueAt c q := fun h =>
  hnul (List.mem_of_mem_drop (List.takeWhile_sublist _ |>.mem h))

theorem strings_of_stands (hnul : 0 ∉ c) (hp : p ≤ c.length + 1)
    (h : ∀ v q, t.vars v = some q → Stands c t.mem p q) : Strings c t := by
  intro v q hq
  obtain ⟨htext, hend, hbefore⟩ := h v q hq
  exact cstr_text htext (valueAt_no_nul hnul q) hend (by omega)

/-- The end of the loop, as the lines from a place on decide it. -/
def Follows (c : Str) (r : Option (Except Fault Parse)) :
    Except Fault (Var → Option ℕ) → Prop
  | .error f => r = some (.error f)
  | .ok vars => ∃ t, r = some (.ok t) ∧ t.vars = vars ∧ Strings c t

/-- A line of the file under the cursor, and what is behind it. -/
structure Line (c done l tail : Str) : Prop where
  split : c = done ++ l ++ tail
  whole : newline ∉ l
  tail : tail = [] ∨ tail.head? = some newline

/-- The search for the end of a line, and the buffer behind it. -/
theorem line_start {done tail : Str} (hnul : 0 ∉ c) (hline : Line c done l tail)
    (hat : At c done.length t) :
    ∃ found m, strchr t.mem (c.length + 1) newline done.length = some found ∧
      cutLine t.mem found = m ∧ Text m done.length l ∧ m (done.length + l.length) = 0 ∧
      (∀ i, i ≠ done.length + l.length → m i = t.mem i) ∧
      found = if tail = [] then none else some (done.length + l.length) := by
  obtain ⟨hc, hwhole, htail⟩ := hline
  have htext : Text t.mem done.length l := text_of_getD hc hat.rest
  have hl : 0 ∉ l := by
    rw [hc, List.mem_append, List.mem_append] at hnul
    exact fun h => hnul (Or.inl (Or.inr h))
  have hlen := congrArg List.length hc
  rw [List.length_append, List.length_append] at hlen
  have hend : t.mem (done.length + l.length) = tail.getD 0 0 := by
    rw [hat.rest _ (by omega), hc, List.getD_eq_getElem?_getD, List.getD_eq_getElem?_getD,
      ← List.length_append, List.getElem?_append_right le_rfl, Nat.sub_self]
  rcases htail with rfl | hhead
  · refine ⟨none, t.mem, ?_, rfl, htext, hend, fun i _ => rfl, (if_pos rfl).symm⟩
    exact strchr_absent htext hwhole hl (by decide) hend (by omega)
  · cases tail with
    | nil => cases hhead
    | cons b tail =>
      obtain rfl := Option.some.inj hhead
      refine ⟨some (done.length + l.length), _, strchr_found htext hwhole hl hend ?_, rfl,
        text_update (Or.inr le_rfl) htext, Function.update_self .., fun i hi => ?_, ?_⟩
      · rw [List.length_cons] at hlen
        omega
      · exact Function.update_of_ne hi ..
      · rw [if_neg (List.cons_ne_nil _ _)]

/-- A line without '=' ends the loop. -/
theorem follows_plain {n : ℕ} {done tail : Str} (hnul : 0 ∉ c) (hline : Line c done l tail)
    (hat : At c done.length t) (hs : t.s = some done.length) (hmore : t.mem done.length ≠ 0)
    (hplain : equals ∉ l) :
    ∃ t', parseLoop (c.length + 1) (n + 2) t = some (.ok t') ∧ t'.vars = t.vars ∧ Strings c t' := by
  obtain ⟨found, m, hfound, hm, htext, hend, hsame, -⟩ := line_start hnul hline hat
  have hlen := congrArg List.length hline.split
  rw [List.length_append, List.length_append] at hlen
  have hl : 0 ∉ l := by
    rw [hline.split, List.mem_append, List.mem_append] at hnul
    exact fun h => hnul (Or.inl (Or.inr h))
  have hpass := (parseLine_eq hfound hm htext hl hend (by omega)).1 hplain
  refine ⟨_, (loop_step hs (by omega) hmore hpass).trans
    (loop_stop rfl (by omega) (Function.update_self ..)), rfl, ?_⟩
  refine strings_of_stands (p := done.length) hnul (by omega) fun v q hq => ?_
  refine stands_congr (hat.values v q hq) fun i hi => ?_
  dsimp only
  rw [Function.update_of_ne (by omega)]
  exact hsame i (by omega)

/-- The state behind a line with '=' that is not the last one. -/
theorem at_next {done tail : Str} (hline : Line c done (front ++ equals :: back) tail)
    (hfront : equals ∉ front) (hat : At c done.length t)
    (htext : Text m done.length (front ++ equals :: back))
    (hend : m (done.length + (front ++ equals :: back).length) = 0)
    (hsame : ∀ i, i ≠ done.length + (front ++ equals :: back).length → m i = t.mem i) (s : Option ℕ) :
    At c (done.length + (front ++ equals :: back).length + 1)
      ⟨Function.update m (done.length + front.length) 0, s,
        assigned done.length (front ++ equals :: back) t.vars⟩ := by
  have hlen : (front ++ equals :: back).length = front.length + 1 + back.length := by
    simp
    omega
  rw [hlen] at hend hsame ⊢
  constructor
  · intro i hi
    dsimp only
    rw [Function.update_of_ne (by omega), hsame i (by omega)]
    exact hat.rest i (by omega)
  · intro v q hq
    dsimp only [assigned] at hq
    rw [if_congr (assigns_iff (name_no_equals v) hfront) rfl rfl] at hq
    by_cases hname : front = v.name
    · rw [if_pos hname, ← hname] at hq
      obtain rfl := Option.some.inj hq
      have hwhole : newline ∉ back := fun h => hline.whole (by simp [h])
      have hvalue := valueAt_line hline.split hwhole hline.tail
      rw [text_append] at htext
      have hplace : done.length + front.length + 1 + back.length =
          done.length + (front.length + 1 + back.length) := by omega
      constructor
      · rw [hvalue]
        exact text_update (Or.inl (by omega)) htext.2.2
      · rw [hvalue, hplace]
        dsimp only
        rw [Function.update_of_ne (by omega)]
        exact hend
      · rw [hvalue]
        omega
    · rw [if_neg hname] at hq
      have hold : Stands c (Function.update m (done.length + front.length) 0) done.length q := by
        refine stands_congr (hat.values v q hq) fun i hi => ?_
        rw [Function.update_of_ne (by omega)]
        exact hsame i (by omega)
      exact stands_le hold (by omega)

/-- The loop does with the rest of the file what its lines say. -/
theorem loop_follows (hnul : 0 ∉ c) {text done : Str} (hc : c = done ++ text)
    (hat : At c done.length t) (hs : t.s = some done.length) {fuel : ℕ} (hfuel : text.length + 2 ≤ fuel) :
    Follows c (parseLoop (c.length + 1) fuel t)
      (follow done.length (text.splitOn newline) t.vars) := by
  induction hn : text.length using Nat.strongRecOn generalizing text done t fuel with
  | ind n ih =>
  obtain ⟨fuel, rfl⟩ : ∃ k, fuel = k + 2 := ⟨fuel - 2, by omega⟩
  have hlen := congrArg List.length hc
  rw [List.length_append] at hlen
  cases text with
  | nil =>
    rw [List.append_nil] at hc
    have hzero : t.mem done.length = 0 := by
      rw [hat.rest _ le_rfl, ← hc]
      exact getD_end c
    exact ⟨t, loop_stop hs (by omega) hzero, rfl, strings_of_stands hnul (by omega) hat.values⟩
  | cons b text =>
    have hmore : t.mem done.length ≠ 0 := by
      have hwhole : c = done ++ (b :: text) ++ [] := by rw [List.append_nil, hc]
      have hfirst := text_of_getD hwhole hat.rest
      rw [hfirst.1]
      exact fun hzero => hnul (by rw [hc, hzero]; simp)
    generalize b :: text = text at *
    by_cases hbreak : newline ∈ text
    · obtain ⟨l, rest, rfl, hwhole⟩ := List.eq_append_cons_of_mem hbreak
      have hline : Line c done l (newline :: rest) :=
        ⟨by rw [hc, List.append_assoc], hwhole, Or.inr rfl⟩
      rw [List.splitOn_append_cons_self_of_not_mem hwhole, follow]
      rw [List.length_append, List.length_cons] at hlen hfuel hn
      by_cases hequals : equals ∈ l
      · obtain ⟨front, back, rfl, hfront⟩ := List.eq_append_cons_of_mem hequals
        obtain ⟨found, m, hfound, hm, htext, hend, hsame, hcase⟩ := line_start hnul hline hat
        have hl : 0 ∉ front ++ equals :: back := by
          rw [hline.split, List.mem_append, List.mem_append] at hnul
          exact fun h => hnul (Or.inl (Or.inr h))
        have hpass := (parseLine_eq hfound hm htext hl hend (by omega)).2 front back rfl hfront
        rw [if_pos hequals, if_neg (List.splitOn_ne_nil _ _), loop_step hs (by omega) hmore hpass]
        rw [if_neg (List.cons_ne_nil _ _)] at hcase
        rw [hcase, Option.map_some]
        have hdone : (done ++ (front ++ equals :: back) ++ [newline]).length =
            done.length + (front ++ equals :: back).length + 1 := by
          rw [List.length_append, List.length_append]
          rfl
        have hnext := at_next hline hfront hat htext hend hsame
          (some (done.length + (front ++ equals :: back).length + 1))
        rw [← hdone] at hnext ⊢
        have hrest : c = (done ++ (front ++ equals :: back) ++ [newline]) ++ rest := by
          rw [hline.split]
          simp
        have hroom : rest.length + 2 ≤ fuel + 1 := by omega
        exact ih rest.length (by omega) hrest hnext rfl hroom rfl
      · rw [if_neg hequals]
        exact follows_plain hnul hline hat hs hmore hequals
    · have hline : Line c done text [] := ⟨by rw [hc, List.append_nil], hbreak, Or.inl rfl⟩
      rw [List.splitOn_eq_singleton hbreak, follow]
      by_cases hequals : equals ∈ text
      · obtain ⟨front, back, rfl, hfront⟩ := List.eq_append_cons_of_mem hequals
        obtain ⟨found, m, hfound, hm, htext, hend, hsame, hcase⟩ := line_start hnul hline hat
        have hl : 0 ∉ front ++ equals :: back := fun h => hnul (by rw [hc]; simp [h])
        have hpass := (parseLine_eq hfound hm htext hl hend (by omega)).2 front back rfl hfront
        rw [if_pos hequals, if_pos rfl, loop_step hs (by omega) hmore hpass]
        rw [if_pos rfl] at hcase
        rw [hcase]
        rfl
      · rw [if_neg hequals]
        exact follows_plain hnul hline hat hs hmore hequals

theorem places_append (name : Str) (p : ℕ) (ls ks : List Str) : places name p (ls ++ ks) =
    places name p ls ++ places name (p + (ls.map fun l => l.length + 1).sum) ks := by
  induction ls generalizing p with
  | nil => rfl
  | cons l ls ih =>
    have hplace : p + ((l :: ls).map fun l => l.length + 1).sum =
        p + l.length + 1 + (ls.map fun l => l.length + 1).sum := by
      rw [List.map_cons, List.sum_cons]
      omega
    rw [List.cons_append, places, places, ih, hplace, List.append_assoc]

/-- A value stands inside of its line. -/
theorem places_between {name : Str} {ls : List Str} (hq : q ∈ places name p ls) :
    p ≤ q ∧ q < p + (ls.map fun l => l.length + 1).sum := by
  induction ls generalizing p with
  | nil => cases hq
  | cons l ls ih =>
    rw [List.map_cons, List.sum_cons]
    rw [places, List.mem_append] at hq
    rcases hq with hhere | hthere
    · split at hhere
      next hassigns =>
        obtain rfl := List.mem_singleton.mp hhere
        have hle := hassigns.length_le
        rw [List.length_append, List.length_singleton] at hle
        omega
      · cases hhere
    · have := ih hthere
      omega

theorem places_eq_nil {name : Str} {ls : List Str} :
    places name p ls = [] ↔ ∀ x ∈ ls, ¬Assigns name x := by
  induction ls generalizing p with
  | nil => exact iff_of_true rfl fun x hx => by cases hx
  | cons l ls ih =>
    rw [places, List.append_eq_nil_iff, ih, List.forall_mem_cons]
    refine and_congr_left fun _ => ?_
    by_cases h : Assigns name l
    · simp [h]
    · simp [h]

theorem follow_front {ls : List Str} (hfront : ∀ x ∈ ls, equals ∈ x) (hplain : equals ∉ l)
    (ks : List Str) : follow p (ls ++ l :: ks) vars =
      .ok fun v => ((places v.name p ls).getLast?).or (vars v) := by
  induction ls generalizing p vars with
  | nil =>
    rw [List.nil_append, follow, if_neg hplain]
    rfl
  | cons x ls ih =>
    rw [List.forall_mem_cons] at hfront
    rw [List.cons_append, follow, if_pos hfront.1, if_neg (by simp), ih hfront.2]
    congr 1
    funext v
    rw [places, List.getLast?_append, Option.or_assoc]
    congr 1
    unfold assigned
    split <;> rfl

theorem follow_all {ls : List Str} (hne : ls ≠ []) (hall : ∀ x ∈ ls, equals ∈ x) :
    follow p ls vars = .error .null := by
  induction ls generalizing p vars with
  | nil => exact absurd rfl hne
  | cons x ls ih =>
    rw [List.forall_mem_cons] at hall
    rw [follow, if_pos hall.1]
    by_cases hlast : ls = []
    · rw [if_pos hlast]
    · rw [if_neg hlast]
      exact ih hlast hall.2

theorem exists_plain (ls : List Str) : (∀ x ∈ ls, equals ∈ x) ∨
    ∃ front l back, ls = front ++ l :: back ∧ (∀ x ∈ front, equals ∈ x) ∧ equals ∉ l := by
  induction ls with
  | nil => exact Or.inl fun x hx => by cases hx
  | cons x ls ih =>
    by_cases hx : equals ∈ x
    · rcases ih with hall | ⟨front, l, back, rfl, hfront, hplain⟩
      · exact Or.inl (List.forall_mem_cons.mpr ⟨hx, hall⟩)
      · exact Or.inr ⟨x :: front, l, back, rfl, List.forall_mem_cons.mpr ⟨hx, hfront⟩, hplain⟩
    · exact Or.inr ⟨[], x, ls, rfl, (fun y hy => by cases hy), hx⟩

/-- The last value in front of a line without '=' is the last one of all exactly when
nothing behind it is assigned. -/
theorem lastPlace_front_iff {front back : List Str} (hc : c.splitOn newline = front ++ l :: back)
    (hplain : equals ∉ l) (v : Var) :
    (places v.name 0 front).getLast? = lastPlace v c ↔ ∀ x ∈ back, ¬Assigns v.name x := by
  have hnone := not_assigns hplain v
  unfold lastPlace
  rw [hc, places_append, Nat.zero_add]
  generalize hp : (front.map fun l => l.length + 1).sum = p
  rw [List.getLast?_append]
  have hback : places v.name p (l :: back) = [] ↔ ∀ x ∈ back, ¬Assigns v.name x := by
    rw [places_eq_nil, List.forall_mem_cons]
    exact and_iff_right hnone
  rw [← hback]
  constructor
  · intro h
    by_contra hne
    obtain ⟨q, hq⟩ : ∃ q, (places v.name p (l :: back)).getLast? = some q :=
      ⟨_, List.getLast?_eq_some_getLast hne⟩
    rw [hq, Option.some_or] at h
    have hbehind := (places_between (List.mem_of_getLast? hq)).1
    have hbefore := (places_between (List.mem_of_getLast? h)).2
    rw [hp] at hbefore
    omega
  · intro h
    rw [h]
    rfl

theorem names_apart : Var.ssid.name ≠ Var.key.name ∧ Var.ssid.name ≠ wifiSeq ∧
    Var.key.name ≠ wifiSeq := by decide

/-- One of the variables is set to its chosen value. -/
theorem setVar_eq (hvars : ∀ v, t.vars v = lastPlace v c) (hstrings : Strings c t) (v : Var)
    (e : Environment × Bool) : setVar (c.length + 1) t v e =
      some (match chosen v c with
        | none => e
        | some value => (setenv e.1 v.name value, true)) := by
  unfold setVar chosen
  cases hq : t.vars v with
  | none =>
    rw [← hvars v, hq]
    rfl
  | some q =>
    rw [← hvars v, hq]
    dsimp only [Option.map_some]
    rw [hstrings v q hq]
    dsimp only
    by_cases hrange : inRange v (valueAt c q) = true
    · rw [if_pos hrange, Option.filter_some_pos hrange]
    · rw [if_neg hrange, Option.filter_some_neg (Bool.eq_false_iff.mpr hrange)]

/-- The number of the change goes with the values. -/
theorem changes_seq {env : Environment} {e : Environment × Bool}
    (hset : ∀ v : Var, e.1 v.name = (chosen v c).or (env v.name))
    (hframe : ∀ name, name ≠ Var.ssid.name → name ≠ Var.key.name → e.1 name = env name)
    (hsaved : e.2 = true ↔ ∃ v, chosen v c ≠ none) : ∃ env' saved,
      (if e.2 then some (setenv e.1 wifiSeq (nextSeq (e.1 wifiSeq)), true) else some e) =
        some (env', saved) ∧ Changes c env env' saved := by
  obtain ⟨-, hssid, hkey⟩ := names_apart
  have hseq : e.1 wifiSeq = env wifiSeq := hframe wifiSeq (Ne.symm hssid) (Ne.symm hkey)
  have hname (v : Var) : v.name ≠ wifiSeq := by
    cases v
    · exact hssid
    · exact hkey
  cases hflag : e.2 with
  | true =>
    refine ⟨_, _, if_pos rfl, ?_, ?_, ?_, iff_of_true rfl (hsaved.mp hflag)⟩
    · intro v
      rw [setenv, Function.update_of_ne (hname v), hset]
    · intro name h1 h2 h3
      rw [setenv, Function.update_of_ne h3, hframe name h1 h2]
    · rw [setenv, Function.update_self, hseq, if_pos rfl]
  | false =>
    refine ⟨e.1, e.2, if_neg (by simp), hset, fun name h1 h2 _ => hframe name h1 h2, ?_, hsaved⟩
    rw [hflag, hseq, if_neg (by simp)]

/-- The environment behind the loop. -/
theorem apply_changes (hvars : ∀ v, t.vars v = lastPlace v c) (hstrings : Strings c t)
    (env : Environment) : ∃ env' saved,
      apply (c.length + 1) t env = some (env', saved) ∧ Changes c env env' saved := by
  obtain ⟨hne, -, -⟩ := names_apart
  unfold apply
  rw [setVar_eq hvars hstrings]
  dsimp only
  rw [setVar_eq hvars hstrings]
  apply changes_seq
  · intro v
    cases v with
    | ssid => cases chosen .ssid c <;> cases chosen .key c <;> simp [setenv, hne]
    | key => cases chosen .ssid c <;> cases chosen .key c <;> simp [setenv, Ne.symm hne]
  · intro name h1 h2
    cases chosen .ssid c <;> cases chosen .key c <;> simp [setenv, h1, h2]
  · constructor
    · intro hsaved
      by_contra hno
      rw [not_exists] at hno
      rw [not_not.mp (hno .ssid), not_not.mp (hno .key)] at hsaved
      cases hsaved
    · intro ⟨v, hv⟩
      cases v with
      | ssid => cases hs : chosen .ssid c <;> cases chosen .key c <;> simp_all
      | key => cases chosen .ssid c <;> cases hk : chosen .key c <;> simp_all

end

/-- The two values, each on its line, with a newline at the end. -/
def goodFile : Str := Env.ascii "wifi_ssid=home\nwifi_key=secret\n"

end Iot7688.BootConfig
