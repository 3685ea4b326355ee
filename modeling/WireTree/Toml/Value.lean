/-
**Values of TOML.**

A value is a text, a number, a truth value, a moment, an array or a table.  A table remembers how
it came about, since that decides who may add to it: a table in braces is complete, one that a
dotted key or a longer header has called into being is not.

Arrays and tables in braces may be nested in each other, but only to a certain depth.

Main definitions:

* `WireTree.Toml.Origin`, `WireTree.Toml.Value` — values;
* `WireTree.Toml.insert` — a table with a value more, under a dotted key;
* `WireTree.Toml.readKeyPath`, `WireTree.Toml.readValue` — dotted keys, and values.
-/

import WireTree.Toml.Moment
import WireTree.Toml.Number
import WireTree.Toml.Text

set_option relaxedAutoImplicit false
set_option autoImplicit false

namespace WireTree.Toml

/-- How a table came about. -/
inductive Origin where
  /-- In braces. -/
  | braces
  /-- By a header of its own, or as the document itself. -/
  | header
  /-- As a part of a longer header. -/
  | partOfHeader
  /-- As a part of a dotted key. -/
  | partOfKey
deriving DecidableEq

/-- A value. -/
inductive Value where
  /-- A text. -/
  | text (t : String)
  /-- An integer. -/
  | integer (n : Int)
  /-- A float. -/
  | real (x : Real)
  /-- A truth value. -/
  | boolean (b : Bool)
  /-- A date, a time, or both. -/
  | moment (m : Moment)
  /-- An array of values. -/
  | array (elements : List Value)
  /-- A table. -/
  | table (origin : Origin) (entries : List (String × Value))
  /-- An array of tables that have headers of their own. -/
  | tables (tables : List (List (String × Value)))

/-- The entries of a table. -/
abbrev Entries : Type := List (String × Value)

/-! ### Tables -/

/-- The entries with another value under a key that they have. -/
def replace (key : String) (value : Value) (entries : Entries) : Entries :=
  entries.map fun entry => if entry.1 == key then (key, value) else entry

/-- Changes the table that a path leads to.  On the way, tables that are missing come into being
with the given origin, and of an array of tables the last one is entered.  A table in braces is
complete, and one with a header of its own cannot be reached by a dotted key. -/
def updateAt (origin : Origin) (f : Origin → Entries → Option Entries) :
    (path : List String) → Origin → Entries → Option Entries
  | [], here, entries => f here entries
  | key :: path, _, entries =>
    match entries.lookup key with
    | none =>
      match updateAt origin f path origin [] with
      | none => none
      | some inner => some (entries ++ [(key, .table origin inner)])
    | some (.table there inner) =>
      if there = .braces ∨ (origin = .partOfKey ∧ there = .header) then none
      else
        match updateAt origin f path there inner with
        | none => none
        | some inner => some (replace key (.table there inner) entries)
    | some (.tables ts) =>
      match updateAt origin f path .header (ts.getLastD []) with
      | none => none
      | some inner => some (replace key (.tables (ts.dropLast ++ [inner])) entries)
    | some _ => none

/-- Puts a value under a key that is not in use yet. -/
def insertNew (key : String) (value : Value) (entries : Entries) : Option Entries :=
  match entries.lookup key with
  | some _ => none
  | none => some (entries ++ [(key, value)])

/-- A table with a value more, under a dotted key, whose last part is `key`.  If there are other
parts, the table they lead to must have come about by dotted keys too. -/
def insert (path : List String) (key : String) (value : Value) (here : Origin) (entries : Entries) :
    Option Entries :=
  let put (there : Origin) (inner : Entries) : Option Entries :=
    if path = [] ∨ there = .partOfKey then insertNew key value inner else none
  updateAt .partOfKey put path here entries

/-! ### Keys -/

/-- What a key without quotes is made of. -/
def isKeyChar (c : Char) : Bool :=
  (decide (97 ≤ c.toNat) && decide (c.toNat ≤ 122)) ||
    (decide (65 ≤ c.toNat) && decide (c.toNat ≤ 90)) ||
    (decide (48 ≤ c.toNat) && decide (c.toNat ≤ 57)) || c == '_' || c == '-'

/-- A key, with quotes or without. -/
def readKey : Reader String := fun cs =>
  match readShortText cs with
  | some (text, cs) => some (text, cs)
  | none =>
    match cs.takeWhile isKeyChar with
    | [] => none
    | key => some (String.ofList key, cs.dropWhile isKeyChar)

/-- The most parts a dotted key may have. -/
def maxKeyParts : Nat := 79

/-- The parts of a dotted key, at most `limit` of them, and the blanks around them. -/
def readKeyParts : (limit : Nat) → Reader (List String)
  | 0, _ => none
  | limit + 1, cs =>
    match readKey (skipBlank cs) with
    | none => none
    | some (key, cs) =>
      match skipBlank cs with
      | '.' :: cs =>
        match readKeyParts limit cs with
        | none => none
        | some (keys, cs) => some (key :: keys, cs)
      | cs => some ([key], cs)

/-- A dotted key: the parts before the last, and the last. -/
def readKeyPath : Reader (List String × String) := fun cs =>
  match readKeyParts maxKeyParts cs with
  | none => none
  | some (keys, cs) => some ((keys.dropLast, keys.getLastD ""), cs)

/-- A dotted key, an equals sign and a value. -/
def readPair (readValue : Reader Value) : Reader ((List String × String) × Value) := fun cs =>
  match readKeyPath cs with
  | some (path, '=' :: cs) =>
    match readValue (skipBlank cs) with
    | some (value, cs) => some ((path, value), cs)
    | none => none
  | _ => none

/-! ### Values -/

/-- A value that is neither an array nor a table. -/
def readPlainValue : Reader Value
  | 't' :: 'r' :: 'u' :: 'e' :: rest => some (.boolean true, rest)
  | 'f' :: 'a' :: 'l' :: 's' :: 'e' :: rest => some (.boolean false, rest)
  | cs =>
    match readText cs with
    | some (t, cs) => some (.text t, cs)
    | none =>
      match readMoment cs with
      | some (m, cs) => some (.moment m, cs)
      | none =>
        match readReal cs with
        | some (x, cs) => some (.real x, cs)
        | none =>
          match readInteger cs with
          | some (n, cs) => some (.integer n, cs)
          | none => none

/-- The elements of an array behind its opening bracket, each followed by a comma or the closing
bracket, with blanks, comments and line ends anywhere; `fuel` bounds their number. -/
def readElements (readValue : Reader Value) : (fuel : Nat) → Reader (List Value)
  | 0, _ => none
  | fuel + 1, cs =>
    match skipFill false cs with
    | none => none
    | some (']' :: cs) => some ([], cs)
    | some cs =>
      match readValue cs with
      | none => none
      | some (value, cs) =>
        match skipFill false cs with
        | some (']' :: cs) => some ([value], cs)
        | some (',' :: cs) =>
          match readElements readValue fuel cs with
          | none => none
          | some (values, cs) => some (value :: values, cs)
        | _ => none

/-- The entries of a table behind its opening brace, of which there is at least one, added to
those read before; `fuel` bounds their number. -/
def readEntries (readValue : Reader Value) : (fuel : Nat) → Entries → Reader Entries
  | 0, _, _ => none
  | fuel + 1, entries, cs =>
    match readPair readValue cs with
    | none => none
    | some (((path, key), value), cs) =>
      match insert path key value .braces entries with
      | none => none
      | some entries =>
        match skipBlank cs with
        | '}' :: cs => some (entries, cs)
        | ',' :: cs => readEntries readValue fuel entries cs
        | _ => none

/-- The most arrays and tables in braces that may be nested in each other. -/
def maxDepth : Nat := 79

/-- A value with at most `depth` arrays and tables in braces nested in each other. -/
def readNested : (depth : Nat) → Reader Value
  | 0, cs => readPlainValue cs
  | depth + 1, '[' :: cs =>
    match readElements (readNested depth) (cs.length + 1) cs with
    | none => none
    | some (values, cs) => some (.array values, cs)
  | depth + 1, '{' :: cs =>
    match skipBlank cs with
    | '}' :: cs => some (.table .braces [], cs)
    | cs =>
      match readEntries (readNested depth) (cs.length + 1) [] cs with
      | none => none
      | some (entries, cs) => some (.table .braces entries, cs)
  | _ + 1, cs => readPlainValue cs

/-- A value. -/
def readValue : Reader Value := readNested maxDepth

end WireTree.Toml
