/-
**Limits from the environment.**

Two environment variables can set the limits of a stream.  A variable that is not set, or whose
value is no text, leaves the default; any other value must be a decimal number of at most 64 bits,
with a plus sign if one likes.

Main definitions:

* `WireTree.Settings.NumberFault`, `WireTree.Settings.parseNumber` — decimal numbers of 64 bits;
* `WireTree.Settings.fromEnvironment` — the limits that an environment sets.
-/

import WireTree.Limits

set_option relaxedAutoImplicit false
set_option autoImplicit false

namespace WireTree.Settings

/-! ### Decimal numbers -/

/-- Why a text is no decimal number of 64 bits. -/
inductive NumberFault where
  /-- There is nothing. -/
  | empty
  /-- There is something that is no digit. -/
  | noDigit
  /-- The number is too large. -/
  | tooLarge
deriving DecidableEq

/-- The wording of a fault. -/
def NumberFault.message : NumberFault → String
  | empty => "cannot parse integer from empty string"
  | noDigit => "invalid digit found in string"
  | tooLarge => "number too large to fit in target type"

/-- The value of a decimal digit. -/
def digitValue (c : Char) : Option Nat :=
  if 48 ≤ c.toNat ∧ c.toNat ≤ 57 then some (c.toNat - 48) else none

/-- Reads digits from left to right; `n` is the number so far. -/
def parseDigits : (n : Nat) → List Char → Except NumberFault Nat
  | n, [] => .ok n
  | n, c :: cs =>
    match digitValue c with
    | none => .error .noDigit
    | some d => if 10 * n + d < 2 ^ 64 then parseDigits (10 * n + d) cs else .error .tooLarge

/-- The number that a text stands for. -/
def parseNumber (text : String) : Except NumberFault Nat :=
  match text.toList with
  | [] => .error .empty
  | ['+'] => .error .noDigit
  | '+' :: cs => parseDigits 0 cs
  | cs => parseDigits 0 cs

/-! ### The two variables -/

/-- The variable that sets the most bytes of a stream. -/
def bufferVariable : String := "MESSAGE_COMPONENTS_MAX_BUFFER_BYTES"

/-- The variable that sets the most bytes of a text. -/
def textVariable : String := "MESSAGE_COMPONENTS_MAX_STRING_LENGTH"

/-- The value of a variable, or a default if it is not set or is no text. -/
def readVariable (environment : String → Option ByteArray) (variableName : String)
    (default : UInt64) : Except WireError UInt64 :=
  match (environment variableName).bind String.fromUTF8? with
  | none => .ok default
  | some text =>
    match parseNumber text with
    | .ok n => .ok (UInt64.ofNat n)
    | .error e =>
      .error (.invalidSettings ("Invalid " ++ variableName ++ " '" ++ text ++ "': " ++ e.message))

/-- The limits that an environment sets, which takes the name of a variable to its value. -/
def fromEnvironment (environment : String → Option ByteArray) : Except WireError Limits :=
  let defaults : Limits := {}
  match readVariable environment bufferVariable defaults.maxBufferBytes with
  | .error e => .error e
  | .ok maxBufferBytes =>
    match readVariable environment textVariable defaults.maxTextBytes with
    | .error e => .error e
    | .ok maxTextBytes => .ok { maxBufferBytes, maxTextBytes }

end WireTree.Settings
