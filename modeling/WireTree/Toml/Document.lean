/-
**Documents of TOML.**

A document is a list of lines.  A line in brackets opens a table, one in double brackets appends a
table to an array of tables, and any other line that is not blank puts a value into the table that
is open, under a key that may have dots.  A key is given once, and a table is opened once.

Main definitions:

* `WireTree.Toml.openTable`, `WireTree.Toml.appendTable` — what the two sorts of header do;
* `WireTree.Toml.Line`, `WireTree.Toml.readLine`, `WireTree.Toml.Open.apply` — lines, and what
  they do;
* `WireTree.Toml.parse` — the entries of a document.
-/

import WireTree.Toml.Value

set_option relaxedAutoImplicit false
set_option autoImplicit false

namespace WireTree.Toml

/-! ### Headers -/

/-- Opens the table under a key.  It must be new, unless it is so far only a part of longer
headers. -/
def openTable (key : String) (entries : Entries) : Option Entries :=
  match entries.lookup key with
  | none => some (entries ++ [(key, .table .header [])])
  | some (.table .partOfHeader inner) => some (replace key (.table .header inner) entries)
  | some _ => none

/-- Appends a table to the array of tables under a key, which may be new. -/
def appendTable (key : String) (entries : Entries) : Option Entries :=
  match entries.lookup key with
  | none => some (entries ++ [(key, .tables [[]])])
  | some (.tables ts) => some (replace key (.tables (ts ++ [[]])) entries)
  | some _ => none

/-! ### Lines -/

/-- What a line says. -/
inductive Line where
  /-- Nothing. -/
  | blank
  /-- Opens a table. -/
  | header (path : List String) (key : String)
  /-- Appends a table to an array of tables. -/
  | arrayHeader (path : List String) (key : String)
  /-- Puts a value into the open table. -/
  | pair (path : List String) (key : String) (value : Value)

/-- A header behind its opening brackets. -/
def readHeader : Reader Line
  | '[' :: cs =>
    match readKeyPath cs with
    | some ((path, key), ']' :: ']' :: cs) => some (.arrayHeader path key, cs)
    | _ => none
  | cs =>
    match readKeyPath cs with
    | some ((path, key), ']' :: cs) => some (.header path key, cs)
    | _ => none

/-- A line, from its first character that is not blank to its last. -/
def readLineBody : Reader Line
  | [] => some (.blank, [])
  | '[' :: cs => readHeader cs
  | c :: cs =>
    if c == '#' || c == '\n' || c == '\r' then some (.blank, c :: cs)
    else
      match readPair readValue (c :: cs) with
      | some (((path, key), value), cs) => some (.pair path key value, cs)
      | none => none

/-- A line and its end. -/
def readLine : Reader Line := fun cs =>
  match readLineBody (skipBlank cs) with
  | none => none
  | some (line, cs) =>
    match endOfLine cs with
    | none => none
    | some cs => some (line, cs)

/-! ### Documents -/

/-- A document that is being read: its entries so far, and the table that is open. -/
structure Open where
  /-- The entries of the document. -/
  entries : Entries
  /-- The keys that lead to the open table. -/
  path : List String

/-- What a line does to a document, if it is allowed. -/
def Open.apply (d : Open) : Line → Option Open
  | .blank => some d
  | .header path key =>
    match updateAt .partOfHeader (fun _ inner => openTable key inner) path .header d.entries with
    | some entries => some ⟨entries, path ++ [key]⟩
    | none => none
  | .arrayHeader path key =>
    match updateAt .partOfHeader (fun _ inner => appendTable key inner) path .header d.entries with
    | some entries => some ⟨entries, path ++ [key]⟩
    | none => none
  | .pair path key value =>
    match updateAt .partOfHeader (insert path key value) d.path .header d.entries with
    | some entries => some { d with entries }
    | none => none

/-- Reads at most `fuel` lines into a document. -/
def readLines : (fuel : Nat) → Open → List Char → Option Entries
  | _, d, [] => some d.entries
  | 0, _, _ :: _ => none
  | fuel + 1, d, cs =>
    match readLine cs with
    | none => none
    | some (line, cs) =>
      match d.apply line with
      | none => none
      | some d => readLines fuel d cs

/-- The characters behind a byte order mark, if one stands in front. -/
def skipByteOrderMark : List Char → List Char
  | c :: cs => if c.toNat = 0xFEFF then cs else c :: cs
  | [] => []

/-- The entries of a document. -/
def parse (text : String) : Option Entries :=
  let cs := skipByteOrderMark text.toList
  readLines cs.length ⟨[], []⟩ cs

end WireTree.Toml
