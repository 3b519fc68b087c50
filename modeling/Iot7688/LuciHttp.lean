import Iot7688.Lib.Memory
import Mathlib.Algebra.Order.BigOperators.Group.List

/-!
URL-encoded parameters in luci.http.protocol. Strings are byte lists, and the patterns
of the source are functions that return what they capture. A table of parameters has a
string or a list of at least two under a name. The body decoder is a sink that a pump
feeds; an error of Lua itself is an outcome of its own. Tables agree only when the lists
behind them are permutations of each other.
-/
namespace Iot7688.LuciHttp

open Lib

/-- A Lua string. -/
abbrev Str := List Byte

def httpMaxContent : ℕ := 1024 * 8

def percent : Byte := 0x25
def ampersand : Byte := 0x26
def plus : Byte := 0x2b
def equals : Byte := 0x3d
def question : Byte := 0x3f

def isSep (c : Byte) : Bool := c == ampersand || c == 0x3b
def isSpace (c : Byte) : Bool := c == 0x20 || (0x09 ≤ c && c ≤ 0x0d)

def isHex (c : Byte) : Bool :=
  (0x30 ≤ c && c ≤ 0x39) || (0x41 ≤ c && c ≤ 0x46) || (0x61 ≤ c && c ≤ 0x66)

def hexValue (c : Byte) : Byte :=
  if c ≤ 0x39 then c - 0x30 else if c ≤ 0x46 then c - 0x37 else c - 0x57

/-- The second substitution of urldecode. -/
def decodeHex : Str → Str
  | c :: a :: b :: cs =>
      if c = percent ∧ isHex a ∧ isHex b then (16 * hexValue a + hexValue b) :: decodeHex cs
      else c :: decodeHex (a :: b :: cs)
  | cs => cs

def urldecode (noPlus : Bool) (str : Str) : Str :=
  decodeHex (if noPlus then str else str.map fun c => if c = plus then 0x20 else c)

/-- The value of a parameter: a string, or a table of strings. -/
inductive Val
  | one (s : Str)
  | many (first second : Str) (rest : List Str)
deriving DecidableEq

def Val.list : Val → List Str
  | .one s => [s]
  | .many first second rest => first :: second :: rest

/-- A table, by the names in it. -/
abbrev Params := Str → Option Val

/-- One more value under a name. -/
def addVal : Option Val → Str → Val
  | none, s => .one s
  | some (.one first), s => .many first s []
  | some (.many first second rest), s => .many first second (rest ++ [s])

def store (params : Params) (key val : Str) : Params :=
  Function.update params key (some (addVal (params key) val))

/-- What lies between the separators. -/
def fields : Str → List Str
  | [] => [[]]
  | c :: cs =>
      if isSep c then [] :: fields cs else (c :: (fields cs).headD []) :: (fields cs).tail

/-- What stands behind the last question mark that another character follows. -/
def behindQuestion : Str → Option Str
  | [] => none
  | c :: cs =>
      (behindQuestion cs).or
        (if c = question ∧ cs ≠ [] ∧ cs.head? ≠ some question then some cs else none)

/-- The substitution of "^.+%?([^?]+)" by its capture. -/
def cutQuery : Str → Str
  | [] => []
  | c :: cs => (behindQuestion cs).getD (c :: cs)

/-- The match of "^([^=]+)". -/
def paramKey (pair : Str) : Option Str :=
  let key := pair.takeWhile (· != equals)
  if key = [] then none else some key

/-- The match of "^[^=]+=(.+)$". -/
def paramVal (pair : Str) : Option Str :=
  let val := (pair.dropWhile (· != equals)).tail
  if pair.takeWhile (· != equals) = [] ∨ val = [] then none else some val

def addPair (params : Params) (pair : Str) : Params :=
  match (paramKey pair).map (urldecode false) with
  | none => params
  | some key =>
      if key.length > 0 then store params key (((paramVal pair).map (urldecode false)).getD [])
      else params

def urldecodeParams (url : Str) (tbl : Params) : Params :=
  let url := if question ∈ url then cutQuery url else url
  ((fields url).filter fun pair => pair ≠ []).foldl addPair tbl

/-- The characters that urlencode keeps. -/
def isKept (c : Byte) : Bool :=
  (0x61 ≤ c && c ≤ 0x7a) || (0x41 ≤ c && c ≤ 0x5a) || (0x30 ≤ c && c ≤ 0x39) || c == 0x24 ||
    c == 0x5f || c == 0x2d || c == 0x2e || c == 0x7e

def hexDigit (n : Byte) : Byte := if n < 10 then 0x30 + n else 0x57 + n

def encodeByte (c : Byte) : Str :=
  if isKept c then [c] else [percent, hexDigit (c / 16), hexDigit (c % 16)]

def urlencode (str : Str) : Str := str.flatMap encodeByte

/-- The names and values of a table, in the order of its enumeration. -/
def entries (tbl : List (Str × Val)) : List (Str × Str) :=
  tbl.flatMap fun p => p.2.list.map fun v => (p.1, v)

def encodePair (p : Str × Str) : Str := urlencode p.1 ++ equals :: urlencode p.2

def urlencodeParams (tbl : List (Str × Val)) : Str :=
  (entries tbl).foldl (fun enc p => enc ++ (if enc.length > 0 then [ampersand] else []) ++
    encodePair p) []

def Val.mapLast (f : Str → Str) : Val → Val
  | .one s => .one (f s)
  | .many first second rest =>
      match rest.getLast? with
      | none => .many first (f second) rest
      | some last => .many first second (rest.dropLast ++ [f last])

/-- __initval, __appendval and __finishval. -/
def initval (tbl : Params) (key : Str) : Params :=
  Function.update tbl key (some (addVal (tbl key) []))

def appendval (tbl : Params) (key chunk : Str) : Params :=
  Function.update tbl key ((tbl key).map (Val.mapLast (· ++ chunk)))

def finishval (tbl : Params) (key : Str) (handler : Str → Str) : Params :=
  Function.update tbl key ((tbl key).map (Val.mapLast handler))

/-- The match of "^(.-)=". -/
def bodyKey (pair : Str) : Option Str :=
  if equals ∈ pair then some (pair.takeWhile (· != equals)) else none

/-- The match of "=([^%s]*)%s*$", at the first place where there is one. -/
def bodyVal : Str → Option Str
  | [] => none
  | c :: cs =>
      if c = equals ∧ (cs.dropWhile fun c => !isSpace c).all isSpace then
        some (cs.takeWhile fun c => !isSpace c)
      else bodyVal cs

/-- Why a body is not decoded: a message of the sink, or an error of Lua. -/
inductive Failure
  | refused (message : String)
  | luaError

/-- A pair of the body. Appending nil is an error. -/
def bodyPair (params : Params) (pair : Str) : Except Failure Params :=
  match bodyKey pair with
  | none => .ok params
  | some key =>
      if key.length > 0 then
        match bodyVal pair with
        | none => .error .luaError
        | some val =>
            .ok (finishval (appendval (initval params key) key val) key (urldecode false))
      else .ok params

/-- The match of "^.-[;&]": what is in front of the first separator, and behind it. -/
def findSep : Str → Option (Str × Str)
  | [] => none
  | c :: cs => if isSep c then some ([], cs) else (findSep cs).map fun r => (c :: r.1, r.2)

theorem findSep_length {data : Str} {r : Str × Str} (h : findSep data = some r) :
    r.2.length < data.length := by
  induction data generalizing r with
  | nil => cases h
  | cons c cs ih =>
    rw [findSep] at h
    split at h
    · obtain rfl := Option.some.inj h
      exact Nat.lt_succ_self _
    · obtain ⟨r', hr', rfl⟩ := Option.map_eq_some_iff.mp h
      have := ih hr'
      exact Nat.lt_succ_of_lt this

/-- The loop over the pairs; what is left is not yet complete. -/
def drain (params : Params) (data : Str) : Except Failure (Params × Str) :=
  match _h : findSep data with
  | none => .ok (params, data)
  | some r =>
      match bodyPair params r.1 with
      | .error e => .error e
      | .ok params => drain params r.2
termination_by data.length
decreasing_by exact findSep_length _h

structure Sink where
  tlen : ℕ
  lchunk : Option Str
  params : Params

/-- The sink of urldecode_message_body; none is the end of the source. -/
def snk (contentLength : Option ℕ) (s : Sink) (chunk : Option Str) : Except Failure Sink :=
  let tlen := s.tlen + (chunk.getD []).length
  if contentLength.any fun n => tlen > n + 2 then
    .error (.refused "Message body size exceeds Content-Length")
  else if tlen > httpMaxContent then
    .error (.refused "Message body size exceeds maximum allowed length")
  else
    match s.lchunk with
    | none => .ok ⟨tlen, chunk, s.params⟩
    | some lchunk =>
        match drain s.params (lchunk ++ chunk.getD [ampersand]) with
        | .error e => .error e
        | .ok r => .ok ⟨tlen, some r.2, r.1⟩

/-- The pump: every chunk of the source, then its end. -/
def pump (contentLength : Option ℕ) : List Str → Sink → Except Failure Sink
  | [], s => snk contentLength s none
  | chunk :: chunks, s =>
      match snk contentLength s (some chunk) with
      | .error e => .error e
      | .ok s => pump contentLength chunks s

def urldecodeMessageBody (contentLength : Option ℕ) (chunks : List Str) (params : Params) :
    Except Failure Params :=
  (pump contentLength chunks ⟨0, none, params⟩).map Sink.params

/-- The table that a list of names and values builds up. -/
def toParams (l : List (Str × Str)) : Params :=
  l.foldl (fun params e => store params e.1 e.2) fun _ => none

/-- The values under a name. -/
def values (l : List (Str × Str)) (key : Str) : List Str :=
  (l.filter fun e => e.1 = key).map Prod.snd

def ofValues : List Str → Option Val
  | [] => none
  | [s] => some (.one s)
  | first :: second :: rest => some (.many first second rest)

theorem ofValues_injective : Function.Injective ofValues := by
  intro a b h
  match a, b with
  | [], [] => rfl
  | [], [_] | [], _ :: _ :: _ | [_], [] | [_], _ :: _ :: _ | _ :: _ :: _, []
  | _ :: _ :: _, [_] => cases h
  | [_], [_] =>
    injection h with h
    injection h with h
    rw [h]
  | _ :: _ :: _, _ :: _ :: _ =>
    injection h with h
    injection h with h1 h2 h3
    rw [h1, h2, h3]

theorem addVal_ofValues (l : List Str) (s : Str) :
    some (addVal (ofValues l) s) = ofValues (l ++ [s]) := by
  match l with
  | [] | [_] | _ :: _ :: _ => rfl

theorem toParams_append (l : List (Str × Str)) (e : Str × Str) :
    toParams (l ++ [e]) = store (toParams l) e.1 e.2 := by
  rw [toParams, List.foldl_append]
  rfl

theorem toParams_apply (l : List (Str × Str)) (key : Str) :
    toParams l key = ofValues (values l key) := by
  induction l using List.reverseRecOn with
  | nil => rfl
  | append_singleton l e ih =>
    rw [toParams_append, store]
    by_cases h : key = e.1
    · subst h
      rw [Function.update_self, ih, addVal_ofValues]
      simp [values]
    · rw [Function.update_of_ne h, ih]
      have hne : ¬e.1 = key := fun heq => h heq.symm
      simp [values, hne]

theorem values_cons (a : Str × Str) (l : List (Str × Str)) (key : Str) :
    values (a :: l) key = if a.1 = key then a.2 :: values l key else values l key := by
  by_cases h : a.1 = key
  · simp [values, h]
  · simp [values, h]

theorem count_eq (l : List (Str × Str)) (e : Str × Str) :
    l.count e = (values l e.1).count e.2 := by
  induction l with
  | nil => rfl
  | cons a l ih =>
    rw [List.count_cons, ih, values_cons]
    by_cases h : a.1 = e.1
    · rw [if_pos h, List.count_cons]
      congr 1
      by_cases hval : a.2 = e.2
      · rw [if_pos (beq_iff_eq.mpr (Prod.ext h hval)), if_pos (beq_iff_eq.mpr hval)]
      · rw [if_neg, if_neg (by simpa using hval)]
        rw [beq_iff_eq]
        exact fun heq => hval (congrArg Prod.snd heq)
    · rw [if_neg h, if_neg]
      · rfl
      · rw [beq_iff_eq]
        exact fun heq => h (congrArg Prod.fst heq)

theorem values_append (l l' : List (Str × Str)) (key : Str) :
    values (l ++ l') key = values l key ++ values l' key := by
  simp [values]

theorem perm_of_values {l l' : List (Str × Str)} (h : ∀ key, values l key = values l' key) :
    l.Perm l' := by
  rw [List.perm_iff_count]
  intro e
  rw [count_eq, count_eq, h]

/-- Equal tables come from the same names and values. -/
theorem perm_of_toParams {l l' : List (Str × Str)} (h : toParams l = toParams l') : l.Perm l' := by
  refine perm_of_values fun key => ofValues_injective ?_
  rw [← toParams_apply, ← toParams_apply, h]

/-- Sums of smaller terms agree only term by term. -/
theorem eq_of_sum_eq {α : Type} {f g : α → ℕ} {l : List α} (hle : ∀ x ∈ l, f x ≤ g x)
    (hsum : (l.map f).sum = (l.map g).sum) : ∀ x ∈ l, f x = g x := by
  induction l with
  | nil => exact fun x hx => absurd hx List.not_mem_nil
  | cons a l ih =>
    obtain ⟨ha, hl⟩ := List.forall_mem_cons.mp hle
    rw [List.map_cons, List.map_cons, List.sum_cons, List.sum_cons] at hsum
    have hrest : (l.map f).sum ≤ (l.map g).sum := List.sum_le_sum hl
    rw [List.forall_mem_cons]
    exact ⟨by omega, ih hl (by omega)⟩

/-- The name in front of the first '=', and what is behind it. -/
def nameOf (pair : Str) : Str := pair.takeWhile (· != equals)
def restOf (pair : Str) : Str := (pair.dropWhile (· != equals)).tail

/-- The entry that urldecode_params makes of a pair. -/
def paramEntry (pair : Str) : Option (Str × Str) :=
  if nameOf pair = [] then none
  else some (urldecode false (nameOf pair), urldecode false (restOf pair))

/-- The entry of the body decoder, which leaves the name as it is. -/
def bodyEntry (pair : Str) : Option (Str × Str) :=
  if equals ∈ pair ∧ nameOf pair ≠ [] then some (nameOf pair, urldecode false (restOf pair))
  else none

def addEntry (params : Params) : Option (Str × Str) → Params
  | none => params
  | some e => store params e.1 e.2

theorem decodeHex_ne_nil {s : Str} (h : s ≠ []) : decodeHex s ≠ [] := by
  fun_cases decodeHex s with
  | case1 => exact List.cons_ne_nil _ _
  | case2 => exact List.cons_ne_nil _ _
  | case3 => exact h

theorem urldecode_ne_nil {s : Str} (h : s ≠ []) : urldecode false s ≠ [] := by
  refine decodeHex_ne_nil ?_
  rw [if_neg Bool.false_ne_true]
  simpa using h

theorem addPair_eq (params : Params) (pair : Str) :
    addPair params pair = addEntry params (paramEntry pair) := by
  unfold addPair paramKey paramVal paramEntry
  rw [← nameOf, ← restOf]
  by_cases hname : nameOf pair = []
  · simp [hname, addEntry]
  · have hlen : (urldecode false (nameOf pair)).length > 0 :=
      List.length_pos_iff.mpr (urldecode_ne_nil hname)
    have hval : ((if nameOf pair = [] ∨ restOf pair = [] then none
        else some (restOf pair)).map (urldecode false)).getD [] =
          urldecode false (restOf pair) := by
      by_cases hrest : restOf pair = []
      · rw [hrest]
        simp [urldecode, decodeHex]
      · rw [if_neg (not_or.mpr ⟨hname, hrest⟩)]
        rfl
    rw [if_neg hname, if_neg hname]
    dsimp only [Option.map_some]
    rw [if_pos hlen, hval]
    rfl

/-- One call of the three helpers is one more value. -/
theorem finishval_eq (params : Params) (key val : Str) (handler : Str → Str) :
    finishval (appendval (initval params key) key val) key handler =
      store params key (handler val) := by
  unfold finishval appendval initval store
  rw [Function.update_idem, Function.update_self, Function.update_idem, Function.update_self]
  congr 1
  match params key with
  | none => rfl
  | some (.one _) => rfl
  | some (.many _ _ _) => simp [addVal, Val.mapLast]

/-- Without white space the value is what stands behind the first '='. -/
theorem bodyVal_eq {pair : Str} (hspace : ∀ c ∈ pair, isSpace c = false) (h : equals ∈ pair) :
    bodyVal pair = some (restOf pair) := by
  induction pair with
  | nil => cases h
  | cons c cs ih =>
    obtain ⟨_, hcs⟩ := List.forall_mem_cons.mp hspace
    have hall : ∀ c ∈ cs, (!isSpace c) = true := fun c hc => by rw [hcs c hc]; rfl
    rw [bodyVal, List.dropWhile_eq_nil_iff.mpr hall, List.takeWhile_eq_self_iff.mpr hall]
    by_cases hc : c = equals
    · subst hc
      rw [if_pos ⟨rfl, rfl⟩]
      simp [restOf]
    · rw [if_neg fun hand => hc hand.1, ih hcs ((List.mem_cons.mp h).resolve_left (Ne.symm hc))]
      simp [restOf, hc]

theorem bodyPair_eq (params : Params) {pair : Str} (hspace : ∀ c ∈ pair, isSpace c = false) :
    bodyPair params pair = .ok (addEntry params (bodyEntry pair)) := by
  unfold bodyPair bodyKey bodyEntry
  rw [← nameOf]
  by_cases hmem : equals ∈ pair
  · rw [if_pos hmem, bodyVal_eq hspace hmem]
    by_cases hname : nameOf pair = []
    · simp [hname, addEntry]
    · have hlen : (nameOf pair).length > 0 := List.length_pos_iff.mpr hname
      dsimp only
      rw [if_pos hlen, finishval_eq, if_pos ⟨hmem, hname⟩]
      rfl
  · rw [if_neg hmem, if_neg fun h => hmem h.1]
    rfl

end Iot7688.LuciHttp
