import Iot7688.Lib.LuaString
import Iot7688.Lib.Strtoul

/-!
Datatype expressions of luci.cbi. compile_datatype goes over the text once and leaves a
flat list: a validator has two slots, itself and its arguments, a number or a quoted text
has one. The combinators of luci.cbi.datatypes go over such a list in steps of two. In a
spelling every character of a name or a literal may have a backslash in front; blanks may
stand around commas and parentheses.
-/
namespace Iot7688.Cbi

open Lib Lua

abbrev Str := List Byte

def paren : Byte := 0x28
def closing : Byte := 0x29
def comma : Byte := 0x2c

def isSpace (c : Byte) : Bool := c == 0x20 || (0x09 ≤ c && c ≤ 0x0d)

def orName : Str := bytesOf "or"
def andName : Str := bytesOf "and"
def negName : Str := bytesOf "neg"
def listName : Str := bytesOf "list"

/-- A slot of the compiled list. Numbers are given by their text. -/
inductive Slot
  | number (text : Str)
  | text (s : Str)
  | func (name : Str)
  | table (args : List Slot)

/-- What Lua knows about labels: the texts that tonumber takes, the functions of
luci.cbi.datatypes, and what the ones that are no combinators say about a value. -/
structure Datatypes where
  isNumber : Str → Bool
  isFunction : Str → Bool
  call : Str → Str → List Slot → Bool
  combinators : ∀ n, n = orName ∨ n = andName ∨ n = negName ∨ n = listName → isFunction n = true
  identifier : ∀ n, isFunction n = true → n ≠ [] ∧ isNumber n = false ∧
    ∀ c ∈ n, isSpace c = false ∧ c ≠ quote ∧ c ≠ apostrophe
  unquoted : ∀ c s, c = quote ∨ c = apostrophe → isNumber (c :: s) = false

inductive Failure
  | badToken (label : Str)
  | followsNonFunction
  | noFunctionExpression
  | stackOverflow

/-- The substitution of "\\(.)" by its capture. -/
def unescape : Str → Str
  | c :: d :: s => if c = backslash then d :: unescape s else c :: unescape (d :: s)
  | s => s

def trim (s : Str) : Str := (s.dropWhile isSpace).rdropWhile isSpace

/-- The match of "^'.*'$", for both quotes. -/
def quoted (q : Byte) (label : Str) : Bool :=
  2 ≤ label.length && label.head? = some q && label.getLast? = some q

/-- What is between the quotes of such a label. -/
def unquote (label : Str) : Str := label.tail.dropLast

def sub (code : Str) (first last : ℕ) : Str := (code.take last).drop (first - 1)

structure Scan where
  pos : ℕ
  esc : Bool
  depth : ℤ
  stack : List Slot

section

variable (dt : Datatypes)

/-- The slots of a label. -/
def pushLabel (stack : List Slot) (raw : Str) : Except Failure (List Slot) :=
  let label := trim (unescape raw)
  if label.length > 0 ∧ dt.isNumber label then .ok (stack ++ [.number label])
  else if quoted apostrophe label ∨ quoted quote label then .ok (stack ++ [.text (unquote label)])
  else if dt.isFunction label then .ok (stack ++ [.func label, .table []])
  else .error (.badToken label)

/-- The slot that an argument list fills is the one behind a function. -/
def fillArgs (stack : List Slot) (args : Except Failure (List Slot)) : Except Failure (List Slot) :=
  match stack.dropLast.getLast? with
  | some (.func _) => args.map fun args => stack.dropLast ++ [.table args]
  | _ => .error .followsNonFunction

/-- The loop body of compile_datatype, where a comma stands behind the text. -/
def step (compile : Str → Except Failure (List Slot)) (code : Str) (s : Scan) (i : ℕ) :
    Except Failure Scan :=
  let byte := (code[i - 1]?).getD comma
  if s.esc then .ok { s with esc := false }
  else if byte = backslash then .ok { s with esc := true }
  else if byte = paren ∨ byte = comma then
    let depth := s.depth + if byte = paren then 1 else 0
    if s.depth ≤ 0 then
      if s.pos < i then
        (pushLabel dt s.stack (sub code s.pos (i - 1))).map fun stack =>
          ⟨i + 1, false, depth, stack⟩
      else .ok ⟨i + 1, false, depth, s.stack⟩
    else .ok { s with depth := depth }
  else if byte = closing then
    if s.depth - 1 ≤ 0 then
      (fillArgs s.stack (compile (sub code s.pos (i - 1)))).map fun stack =>
        ⟨i + 1, false, s.depth - 1, stack⟩
    else .ok { s with depth := s.depth - 1 }
  else .ok s

/-- compile_datatype for a number of nested calls. -/
def compileDatatype : ℕ → Str → Except Failure (List Slot)
  | 0, _ => .error .stackOverflow
  | calls + 1, code =>
      ((List.range' 1 (code.length + 1)).foldlM (step dt (compileDatatype calls) code)
        ⟨0, false, 0, []⟩).map Scan.stack

/-- Whether a slot that is no function equals the value. -/
def Slot.equals (v : Str) : Slot → Bool
  | .text s => s = v
  | _ => false

/-- The substitution of "^%s*!%s*" by nothing. -/
def stripNot (v : Str) : Str :=
  match v.dropWhile isSpace with
  | 0x21 :: s => s.dropWhile isSpace
  | _ => v

/-- The matches of "%S+". -/
def words : Str → List Str
  | [] => []
  | c :: s =>
      if isSpace c then words s
      else match s with
        | [] => [[c]]
        | d :: _ => if isSpace d then [c] :: words s
            else (c :: (words s).headD []) :: (words s).tail

mutual

/-- A validator with the slot of its arguments. -/
def callSlot (name v : Str) : Slot → Bool
  | .table args =>
      if name = orName then orLoop v args
      else if name = negName then orLoop (stripNot v) args
      else if name = andName then andLoop v args
      else if name = listName then listArgs v args
      else dt.call name v args
  | _ => false

/-- The loop of 'or' has a step of two, whatever is in a slot. -/
def orLoop (v : Str) : List Slot → Bool
  | [] => false
  | [f] => f.equals v
  | .func name :: a :: rest => callSlot name v a || orLoop v rest
  | f :: _ :: rest => f.equals v || orLoop v rest

def andLoop (v : Str) : List Slot → Bool
  | [] => true
  | [f] => f.equals v
  | .func name :: a :: rest => callSlot name v a && andLoop v rest
  | f :: _ :: rest => f.equals v && andLoop v rest

def listArgs (v : Str) : List Slot → Bool
  | .func name :: a :: _ => (words v).all fun w => callSlot name w a
  | _ => false

end

/-- The text of a datatype compiles to a function with its arguments. -/
def verifyDatatype (code v : Str) : Except Failure Bool :=
  if code.length > 0 then
    (compileDatatype dt (code.length + 1) code).bind fun c =>
      match c with
      | .func name :: a :: _ => .ok (callSlot dt name v a)
      | _ => .error .noFunctionExpression
  else .ok true

end

/-- The expressions, without their spelling. -/
inductive Expr
  | literal (s : Str)
  | validator (name : Str)
  | or (args : List Expr)
  | and (args : List Expr)
  | list (d : Expr)

section

variable (dt : Datatypes)

mutual

/-- A literal accepts its own text, 'list' a value whose words are accepted. -/
def meaning : Expr → Str → Bool
  | .literal s, v => v = s
  | .validator name, v => dt.call name v []
  | .or args, v => anyMeans args v
  | .and args, v => allMean args v
  | .list d, v => (words v).all fun w => meaning d w

def anyMeans : List Expr → Str → Bool
  | [], _ => false
  | e :: args, v => meaning e v || anyMeans args v

def allMean : List Expr → Str → Bool
  | [], _ => true
  | e :: args, v => meaning e v && allMean args v

end

end

mutual

/-- The expression with the arguments that the loops look at: an argument behind an odd
number of literals is left out, but for a validator in 'and', which refuses every value.
So does 'list' with a literal. -/
def kept : Expr → Expr
  | .literal s => .literal s
  | .validator name => .validator name
  | .or args => .or (keptOr false args)
  | .and args => .and (keptAnd false args)
  | .list (.literal _) => .or []
  | .list d => .list (kept d)

def keptOr (odd : Bool) : List Expr → List Expr
  | [] => []
  | .literal s :: args => if odd then keptOr false args else .literal s :: keptOr true args
  | e :: args => if odd then keptOr true args else kept e :: keptOr false args

def keptAnd (odd : Bool) : List Expr → List Expr
  | [] => []
  | .literal s :: args => if odd then keptAnd false args else .literal s :: keptAnd true args
  | e :: args => if odd then .or [] :: keptAnd true args else kept e :: keptAnd false args

end

mutual

/-- What an expression compiles to. -/
def slots : Expr → List Slot
  | .literal s => [.text s]
  | .validator name => [.func name, .table []]
  | .or args => [.func orName, .table (slotsOf args)]
  | .and args => [.func andName, .table (slotsOf args)]
  | .list d => [.func listName, .table (slots d)]

def slotsOf : List Expr → List Slot
  | [] => []
  | e :: args => slots e ++ slotsOf args

end

/-- The characters that compile_datatype looks for. -/
def isSpecial (c : Byte) : Bool := c == backslash || c == paren || c == closing || c == comma

/-- A text with a backslash in front of some characters. -/
structure Spelling (value : Str) where
  chars : List (Bool × Byte)
  value_eq : chars.map Prod.snd = value
  escaped : ∀ p ∈ chars, isSpecial p.2 = true → p.1 = true

def Spelling.text {value : Str} (s : Spelling value) : Str :=
  s.chars.flatMap fun p => if p.1 then [backslash, p.2] else [p.2]

/-- White space. -/
abbrev Blanks := {s : Str // ∀ c ∈ s, isSpace c = true}

inductive Quote
  | single
  | double

def Quote.byte : Quote → Byte
  | .single => apostrophe
  | .double => quote

/-- The names of the validators that are no combinators. -/
abbrev Validator (dt : Datatypes) :=
  {n : Str // dt.isFunction n = true ∧ n ≠ orName ∧ n ≠ andName ∧ n ≠ negName ∧ n ≠ listName}

inductive Combinator
  | or
  | and

def Combinator.name : Combinator → Str
  | .or => orName
  | .and => andName

/-- A spelled expression. -/
inductive Syn (dt : Datatypes)
  | literal (before : Blanks) (q : Quote) (value : Str) (s : Spelling value) (after : Blanks)
  | validator (before : Blanks) (n : Validator dt) (s : Spelling n.val) (after : Blanks)
  | many (before : Blanks) (c : Combinator) (s : Spelling c.name) (middle : Blanks)
      (first : Syn dt) (rest : List (Syn dt)) (after : Blanks)
  | list (before : Blanks) (s : Spelling listName) (middle : Blanks) (d : Syn dt)
      (after : Blanks)

def Combinator.expr : Combinator → List Expr → Expr
  | .or, args => .or args
  | .and, args => .and args

section

variable {dt : Datatypes}

mutual

def Syn.expr : Syn dt → Expr
  | .literal _ _ value _ _ => .literal value
  | .validator _ n _ _ => .validator n.val
  | .many _ c _ _ first rest _ => c.expr (first.expr :: exprsOf rest)
  | .list _ _ _ d _ => .list d.expr

def exprsOf : List (Syn dt) → List Expr
  | [] => []
  | e :: args => e.expr :: exprsOf args

end

mutual

def Syn.text : Syn dt → Str
  | .literal before q _ s after => before.val ++ q.byte :: (s.text ++ q.byte :: after.val)
  | .validator before _ s after => before.val ++ (s.text ++ after.val)
  | .many before _ s middle first rest after =>
      before.val ++ (s.text ++ (middle.val ++
        paren :: (first.text ++ (tailText rest ++ closing :: after.val))))
  | .list before s middle d after =>
      before.val ++ (s.text ++ (middle.val ++ paren :: (d.text ++ closing :: after.val)))

/-- More arguments, each behind a comma. -/
def tailText : List (Syn dt) → Str
  | [] => []
  | e :: args => comma :: (e.text ++ tailText args)

end

mutual

/-- No blank stands behind a parenthesis that closes. -/
def Syn.Tight : Syn dt → Prop
  | .literal _ _ _ _ _ => True
  | .validator _ _ _ _ => True
  | .many _ _ _ _ first rest after => first.Tight ∧ AllTight rest ∧ after.val = []
  | .list _ _ _ d after => d.Tight ∧ after.val = []

def AllTight : List (Syn dt) → Prop
  | [] => True
  | e :: args => e.Tight ∧ AllTight args

end

/-- A datatype is an expression with a validator in front. -/
def Syn.IsLiteral : Syn dt → Prop
  | .literal _ _ _ _ _ => True
  | _ => False

end

end Iot7688.Cbi
