/-
**Texts of TOML.**

A text stands between double quotes, with escapes, or between single quotes, as it is.  Three
quotes instead of one begin a text that may span lines; a line end right behind them is dropped,
and up to two quotes may stand before the three that end it.  In a text with escapes a backslash
at the end of a line swallows the line end and all blanks and line ends that follow.

Main definitions:

* `WireTree.Toml.readBasic`, `WireTree.Toml.readLiteral` — the rest of a text on one line, behind
  its opening quote;
* `WireTree.Toml.readText` — a text of any of the four forms.
-/

import WireTree.Toml.Lexeme

set_option relaxedAutoImplicit false
set_option autoImplicit false

namespace WireTree.Toml

/-! ### Escapes -/

/-- The character of a number, if it is one. -/
def charOfNumber (n : Nat) : Option Char := if n.isValidChar then some (Char.ofNat n) else none

/-- The character that hexadecimal digits stand for. -/
def charOfDigits (ds : List Char) : Option Char :=
  match ds.mapM (digitValue 16) with
  | some values => charOfNumber (ofDigits 16 values)
  | none => none

/-- The character of an escape of two characters. -/
def simpleEscape : Char → Option Char
  | 'b' => some '\x08'
  | 't' => some '\t'
  | 'n' => some '\n'
  | 'f' => some '\x0c'
  | 'r' => some '\r'
  | '"' => some '"'
  | '\\' => some '\\'
  | _ => none

/-! ### Texts on one line -/

/-- The rest of a text with escapes, up to the double quote that ends it. -/
def readBasic : Reader (List Char)
  | [] => none
  | '"' :: rest => some ([], rest)
  | '\\' :: 'u' :: a :: b :: c :: d :: rest =>
    match charOfDigits [a, b, c, d], readBasic rest with
    | some char, some (text, rest) => some (char :: text, rest)
    | _, _ => none
  | '\\' :: 'U' :: a :: b :: c :: d :: e :: f :: g :: h :: rest =>
    match charOfDigits [a, b, c, d, e, f, g, h], readBasic rest with
    | some char, some (text, rest) => some (char :: text, rest)
    | _, _ => none
  | '\\' :: c :: rest =>
    match simpleEscape c, readBasic rest with
    | some char, some (text, rest) => some (char :: text, rest)
    | _, _ => none
  | c :: rest =>
    if isPlain c && c != '\\' then
      match readBasic rest with
      | some (text, rest) => some (c :: text, rest)
      | none => none
    else none

/-- The rest of a text as it is, up to the single quote that ends it. -/
def readLiteral : Reader (List Char)
  | [] => none
  | '\'' :: rest => some ([], rest)
  | c :: rest =>
    if isPlain c then
      match readLiteral rest with
      | some (text, rest) => some (c :: text, rest)
      | none => none
    else none

/-! ### Texts over several lines -/

/-- What the reader of a text with escapes is in the middle of. -/
inductive Stretch where
  /-- The text itself. -/
  | text
  /-- Behind a backslash, before the end of the line. -/
  | lineEnd
  /-- Behind a backslash and the end of the line. -/
  | indent
deriving DecidableEq

/-- The rest of a text with escapes that may span lines, up to the three double quotes that end
it. -/
def readLongBasic : Stretch → Reader (List Char)
  | _, [] => none
  | .lineEnd, '\n' :: rest => readLongBasic .indent rest
  | .lineEnd, '\r' :: '\n' :: rest => readLongBasic .indent rest
  | .lineEnd, c :: rest => if isBlank c then readLongBasic .lineEnd rest else none
  | .indent, '\n' :: rest => readLongBasic .indent rest
  | .indent, '\r' :: '\n' :: rest => readLongBasic .indent rest
  | .indent, ' ' :: rest => readLongBasic .indent rest
  | .indent, '\t' :: rest => readLongBasic .indent rest
  | _, '"' :: '"' :: '"' :: '"' :: '"' :: rest => some (['"', '"'], rest)
  | _, '"' :: '"' :: '"' :: '"' :: rest => some (['"'], rest)
  | _, '"' :: '"' :: '"' :: rest => some ([], rest)
  | _, '\\' :: 'u' :: a :: b :: c :: d :: rest =>
    match charOfDigits [a, b, c, d], readLongBasic .text rest with
    | some char, some (text, rest) => some (char :: text, rest)
    | _, _ => none
  | _, '\\' :: 'U' :: a :: b :: c :: d :: e :: f :: g :: h :: rest =>
    match charOfDigits [a, b, c, d, e, f, g, h], readLongBasic .text rest with
    | some char, some (text, rest) => some (char :: text, rest)
    | _, _ => none
  | _, '\\' :: '\n' :: rest => readLongBasic .indent rest
  | _, '\\' :: '\r' :: '\n' :: rest => readLongBasic .indent rest
  | _, '\\' :: ' ' :: rest => readLongBasic .lineEnd rest
  | _, '\\' :: '\t' :: rest => readLongBasic .lineEnd rest
  | _, '\\' :: c :: rest =>
    match simpleEscape c, readLongBasic .text rest with
    | some char, some (text, rest) => some (char :: text, rest)
    | _, _ => none
  | _, '\r' :: '\n' :: rest =>
    match readLongBasic .text rest with
    | some (text, rest) => some ('\n' :: text, rest)
    | none => none
  | _, c :: rest =>
    if (isPlain c && c != '\\') || c == '\n' then
      match readLongBasic .text rest with
      | some (text, rest) => some (c :: text, rest)
      | none => none
    else none

/-- The rest of a text as it is that may span lines, up to the three single quotes that end it. -/
def readLongLiteral : Reader (List Char)
  | [] => none
  | '\'' :: '\'' :: '\'' :: '\'' :: '\'' :: rest => some (['\'', '\''], rest)
  | '\'' :: '\'' :: '\'' :: '\'' :: rest => some (['\''], rest)
  | '\'' :: '\'' :: '\'' :: rest => some ([], rest)
  | '\r' :: '\n' :: rest =>
    match readLongLiteral rest with
    | some (text, rest) => some ('\n' :: text, rest)
    | none => none
  | c :: rest =>
    if isPlain c || c == '\n' then
      match readLongLiteral rest with
      | some (text, rest) => some (c :: text, rest)
      | none => none
    else none

/-- The characters behind a line end, if one stands in front. -/
def dropNewline (cs : List Char) : List Char := (newline cs).getD cs

/-! ### All forms -/

/-- A text on one line, of either form. -/
def readShortText : Reader String
  | '"' :: rest => (readBasic rest).map fun p => (String.ofList p.1, p.2)
  | '\'' :: rest => (readLiteral rest).map fun p => (String.ofList p.1, p.2)
  | _ => none

/-- A text of any form. -/
def readText : Reader String
  | '"' :: '"' :: '"' :: rest =>
    (readLongBasic .text (dropNewline rest)).map fun p => (String.ofList p.1, p.2)
  | '\'' :: '\'' :: '\'' :: rest =>
    (readLongLiteral (dropNewline rest)).map fun p => (String.ofList p.1, p.2)
  | cs => readShortText cs

end WireTree.Toml
