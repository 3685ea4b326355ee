/-
**The small change of TOML.**

Blanks, comments, ends of lines and runs of digits.  A reader takes a list of characters and
answers with what it found and the characters behind it, or with nothing.

Main definitions:

* `WireTree.Toml.Reader` — readers;
* `WireTree.Toml.skipBlank`, `WireTree.Toml.endOfLine`, `WireTree.Toml.skipFill` — what stands
  between things;
* `WireTree.Toml.digits`, `WireTree.Toml.fixedDigits` — runs of digits, with underscores between
  them, and of a fixed length.

Main results:

* `WireTree.Toml.skipBlank_eq_self_iff` — when nothing is skipped.
-/

set_option relaxedAutoImplicit false
set_option autoImplicit false

namespace WireTree.Toml

/-- A reader takes what it can from the front and answers with the rest. -/
abbrev Reader (α : Type) : Type := List Char → Option (α × List Char)

/-! ### Characters -/

/-- Spaces and tabs. -/
def isBlank (c : Char) : Bool := c == ' ' || c == '\t'

/-- What may stand in a comment, and in a text apart from quotes and backslashes: tabs and
everything that is no control character of ASCII. -/
def isPlain (c : Char) : Bool := c == '\t' || (decide (32 ≤ c.toNat) && c.toNat != 127)

/-- The value of a decimal digit. -/
def decimalValue (c : Char) : Option Nat :=
  if 48 ≤ c.toNat ∧ c.toNat ≤ 57 then some (c.toNat - 48) else none

/-- The value of a digit to a base of at most 16. -/
def digitValue (base : Nat) (c : Char) : Option Nat :=
  let n := c.toNat
  let value : Option Nat :=
    if 48 ≤ n ∧ n ≤ 57 then some (n - 48)
    else if 97 ≤ n ∧ n ≤ 102 then some (n - 87)
    else if 65 ≤ n ∧ n ≤ 70 then some (n - 55)
    else none
  value.filter (· < base)

/-! ### What stands between things -/

/-- The characters behind leading blanks. -/
def skipBlank (cs : List Char) : List Char := cs.dropWhile isBlank

/-- The characters behind the end of a line, if one stands in front. -/
def newline : List Char → Option (List Char)
  | '\n' :: rest => some rest
  | '\r' :: '\n' :: rest => some rest
  | _ => none

/-- The characters behind a comment, if one stands in front; its end is not checked. -/
def skipComment : List Char → List Char
  | '#' :: rest => rest.dropWhile isPlain
  | cs => cs

/-- The characters of the next line, if nothing but blanks and a comment is left of this one. -/
def endOfLine (cs : List Char) : Option (List Char) :=
  match skipComment (skipBlank cs) with
  | [] => some []
  | rest => newline rest

/-- The characters behind blanks, comments and ends of lines; nothing if a comment or an end of
line is malformed. -/
def skipFill : (inComment : Bool) → List Char → Option (List Char)
  | _, [] => some []
  | _, '\n' :: rest => skipFill false rest
  | _, '\r' :: '\n' :: rest => skipFill false rest
  | true, c :: rest => if isPlain c then skipFill true rest else none
  | false, c :: rest =>
    if isBlank c then skipFill false rest
    else if c == '#' then skipFill true rest
    else some (c :: rest)

/-! ### Digits -/

/-- The values of the digits in front, single underscores between them left out. -/
def moreDigits (base : Nat) : List Char → List Nat × List Char
  | [] => ([], [])
  | [c] =>
    match digitValue base c with
    | some d => ([d], [])
    | none => ([], [c])
  | c :: c' :: rest =>
    match digitValue base c with
    | some d =>
      match moreDigits base (c' :: rest) with
      | (ds, rest) => (d :: ds, rest)
    | none =>
      if c == '_' then
        match digitValue base c' with
        | some d =>
          match moreDigits base rest with
          | (ds, rest) => (d :: ds, rest)
        | none => ([], c :: c' :: rest)
      else ([], c :: c' :: rest)

/-- At least one digit, single underscores between digits left out. -/
def digits (base : Nat) : Reader (List Nat)
  | [] => none
  | c :: rest =>
    match digitValue base c with
    | none => none
    | some d =>
      match moreDigits base rest with
      | (ds, rest) => some (d :: ds, rest)

/-- The number that digits stand for. -/
def ofDigits (base : Nat) (ds : List Nat) : Nat := ds.foldl (fun n d => base * n + d) 0

/-- Exactly `count` decimal digits, as a number; `n` is the number so far. -/
def fixedDigits : (count n : Nat) → Reader Nat
  | 0, n, cs => some (n, cs)
  | _ + 1, _, [] => none
  | count + 1, n, c :: cs =>
    match decimalValue c with
    | none => none
    | some d => fixedDigits count (10 * n + d) cs

/-- Nothing is skipped exactly when no blank stands in front. -/
theorem skipBlank_eq_self_iff {cs : List Char} :
    skipBlank cs = cs ↔ ∀ c ∈ cs.head?, isBlank c = false := by
  cases cs with
  | nil => simp [skipBlank]
  | cons c cs =>
    by_cases h : isBlank c
    · simp only [skipBlank, List.dropWhile_cons, h, if_true, List.head?_cons, Option.mem_some_iff,
        forall_eq', Bool.true_eq_false, iff_false]
      intro h'
      have hlen := congrArg List.length h'
      have hle := (List.dropWhile_suffix isBlank (l := cs)).length_le
      simp at hlen
      omega
    · simp [skipBlank, h]

end WireTree.Toml
