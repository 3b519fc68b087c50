import Iot7688.Lib.Fields
import Iot7688.Lib.Strtok

/-!
The site survey of ap_client.c. The driver's text is cut into lines in place, and of each
line four columns go into an entry of st, where the security column is split in place. The
table is the static memory from st on, with the pointers as the bytes of their addresses.
-/
namespace Iot7688.ApClient

open Lib

abbrev Str := List Byte

def newline : Byte := 0x0a
def blank : Byte := 0x20
def slash : Byte := 0x2f

/-- The array fields of struct survey_table. -/
inductive Column
  | channel
  | ssid
  | bssid
  | security
deriving DecidableEq

def Column.offset : Column → ℕ
  | .channel => 0
  | .ssid => 4
  | .bssid => 37
  | .security => 57

def Column.width : Column → ℕ
  | .channel => 4
  | .ssid => 33
  | .bssid => 20
  | .security => 23

/-- sizeof(struct survey_table), with the pointer crypto behind the fields. -/
def entrySize : ℕ := 84

def tableSize : ℕ := 64 * entrySize

def Column.place (i : ℕ) (c : Column) : ℕ := entrySize * i + c.offset

def Column.stop (i : ℕ) (c : Column) : ℕ := c.place i + c.width

def cryptoPlace (i : ℕ) : ℕ := entrySize * i + 80

/-- The addresses of st and of the literal "", and how far the static memory reaches. -/
structure Link where
  base : ℕ
  literal : ℕ
  limit : ℕ
  table : tableSize ≤ limit
  fits : base + limit ≤ 2 ^ 32
  word : literal < 2 ^ 32

def crypto (st : Mem) (i : ℕ) : ℕ :=
  leValue ((List.range 4).map fun j => st (cryptoPlace i + j))

def setCrypto (st : Mem) (i a : ℕ) : Mem :=
  st.copy (cryptoPlace i) 4 fun j => (leBytes 4 a).getD j 0

/-- The trimming of next_field from an index down; the first byte is kept. -/
def trim (st : Mem) (output : ℕ) : ℕ → Mem
  | 0 => st
  | i + 1 =>
      if st (output + (i + 1)) ≠ blank then st
      else trim (Function.update st (output + (i + 1)) 0) output i

/-- The cursor behind the column, and the table; none reads behind the result buffer. -/
def nextField (limit : ℕ) (s : Mem) (line : ℕ) (st : Mem) (output n : ℕ) : Option (ℕ × Mem) :=
  if line + n ≤ limit then some (line + n, trim (st.copy output n (s.shift line)) output (n - 1))
  else none

/-- The split of the security column at the first '/'. -/
def splitSecurity (k : Link) (st : Mem) (i : ℕ) : Option Mem :=
  match strchr st k.limit slash (Column.security.place i) with
  | none => none
  | some none => some (setCrypto st i k.literal)
  | some (some q) =>
      let st := setCrypto st i (k.base + q)
      let st := Function.update st q 0
      some (setCrypto st i (crypto st i + 1))

structure Table where
  st : Mem
  count : ℕ

/-- The result buffer, the place that strtok has saved, and the table. -/
structure Survey extends Table where
  s : Mem
  save : ℕ

/-- The body of the loop: the next line, if any. -/
def surveyLine (k : Link) (limit : ℕ) (w : Survey) (line : ℕ) : Option (Option ℕ × Survey) := do
  let i := w.count
  let (line, st) ← nextField limit w.s line w.st (Column.channel.place i) Column.channel.width
  let (line, st) ← nextField limit w.s line st (Column.ssid.place i) Column.ssid.width
  let (line, st) ← nextField limit w.s line st (Column.bssid.place i) Column.bssid.width
  let (_, st) ← nextField limit w.s line st (Column.security.place i) Column.security.width
  let (line, s, save) ← strtok w.s limit newline w.save
  let st ← splitSecurity k st i
  some (line, ⟨⟨st, i + 1⟩, s, save⟩)

/-- The loop over the lines; the number is that of the entries that are left. -/
def surveyLoop (k : Link) (limit : ℕ) : ℕ → Option ℕ → Survey → Option Survey
  | 0, _, w => some w
  | _ + 1, none, w => some w
  | n + 1, some line, w =>
      match surveyLine k limit w line with
      | none => none
      | some (line, w) => surveyLoop k limit n line w

/-- What the ioctl gives. -/
structure Answer where
  ret : ℤ
  length : ℕ
  data : Mem

def wifiSiteSurvey (k : Link) (limit : ℕ) (a : Answer) (t : Table) : Option Table :=
  if a.ret ≠ 0 ∨ a.length < 1 then some t
  else
    match skipByte a.data limit newline 0 with
    | none => none
    | some start =>
        match strtok a.data limit newline start with
        | none => none
        | some (_, s, save) =>
            match strtok s limit newline save with
            | none => none
            | some (line, s, save) =>
                (surveyLoop k limit 64 line ⟨⟨t.st, 0⟩, s, save⟩).map Survey.toTable

def wifiFindAp (t : Table) (name : Str) (bssid : Option Str) : Option ℕ :=
  match bssid with
  | some (b :: bs) =>
      (List.range t.count).find? fun i => streq (b :: bs) t.st (Column.bssid.place i)
  | _ => (List.range t.count).find? fun i => streq name t.st (Column.ssid.place i)

/-- The texts of a network's columns. -/
structure Network where
  channel : Str
  ssid : Str
  bssid : Str
  security : Str
deriving DecidableEq

def Network.text (x : Network) : Column → Str
  | .channel => x.channel
  | .ssid => x.ssid
  | .bssid => x.bssid
  | .security => x.security

/-- The security text before '/'. -/
def Network.encryption (x : Network) : Str := x.security.takeWhile fun b => b ≠ slash

/-- The cipher text behind '/'. -/
def Network.cipher (x : Network) : Str := (x.security.dropWhile fun b => b ≠ slash).tail

/-- A column as the driver prints it. -/
def padded (c : Column) (text : Str) : Str := text ++ List.replicate (c.width - text.length) blank

def columns (x : Network) : Str :=
  padded .channel x.channel ++ padded .ssid x.ssid ++ padded .bssid x.bssid ++
    padded .security x.security

/-- What a column of a line can hold. -/
structure Prints (c : Column) (text : Str) : Prop where
  line : newline ∉ text
  trimmed : text.getLast? ≠ some blank
  fits : text.length ≤ c.width

/-- A line of the driver: the four columns and what it prints behind them. -/
structure Line where
  network : Network
  more : Str
  prints : ∀ c, Prints c (network.text c)
  ssid : network.ssid.length ≤ 32
  line : newline ∉ more
  nul : 0 ∉ more

def Line.text (l : Line) : Str := columns l.network ++ l.more ++ [newline]

/-- The driver's text: newlines, a header line and the networks. -/
structure Printout where
  newlines : ℕ
  header : Str
  lines : List Line
  named : header ≠ []
  line : newline ∉ header
  nul : 0 ∉ header
  count : lines.length ≤ 64

def Printout.text (p : Printout) : Str :=
  List.replicate p.newlines newline ++ p.header ++ [newline] ++ p.lines.flatMap Line.text

def Printout.networks (p : Printout) : List Network := p.lines.map Line.network

/-- The text with its NUL is in the result buffer. -/
structure Holds (limit : ℕ) (p : Printout) (a : Answer) : Prop where
  ret : a.ret = 0
  length : 1 ≤ a.length
  text : Text a.data 0 (p.text ++ [0])
  fits : p.text.length < limit

/-- An entry has exactly the texts of a network, each with its NUL inside of its field. -/
structure Stored (k : Link) (st : Mem) (i : ℕ) (x : Network) : Prop where
  channel : cstr st (Column.channel.stop i) (Column.channel.place i) = some x.channel
  ssid : cstr st (Column.ssid.stop i) (Column.ssid.place i) = some x.ssid
  bssid : cstr st (Column.bssid.stop i) (Column.bssid.place i) = some x.bssid
  security : cstr st (Column.security.stop i) (Column.security.place i) = some x.encryption
  split : slash ∈ x.security → ∃ q, q = Column.security.place i + x.encryption.length + 1 ∧
    crypto st i = k.base + q ∧ cstr st (Column.security.stop i) q = some x.cipher
  whole : slash ∉ x.security → crypto st i = k.literal

/-- The first network with the address if one is given, else with the name. -/
def firstNetwork (xs : List Network) (name : Str) : Option Str → Option ℕ
  | some (b :: bs) => xs.findIdx? fun x => x.bssid = b :: bs
  | _ => xs.findIdx? fun x => x.ssid = name

/-- The survey stores the networks, and the search finds them. -/
structure Surveys (k : Link) (xs : List Network) (t : Table) : Prop where
  count : t.count = xs.length
  stored : ∀ i x, xs[i]? = some x → Stored k t.st i x
  found : ∀ name bssid, 0 ∉ name → (∀ b ∈ bssid, 0 ∉ b) →
    wifiFindAp t name bssid = firstNetwork xs name bssid

/-- Every column has a text of at least one byte, without NUL and shorter than the column. -/
def Storable (x : Network) : Prop :=
  ∀ c, x.text c ≠ [] ∧ 0 ∉ x.text c ∧ (x.text c).length < c.width

end Iot7688.ApClient
