/-
**Bytes in hexadecimal.**

A byte is written as two lowercase digits, the high half first.  Reading accepts digits of either
case and wants exactly as many as the bytes need.  A text is refused for the first of three
reasons: it has an odd number of bytes, it has the wrong number of bytes, or it has a byte that is
no digit, of which the first is told.

Main definitions:

* `WireTree.Hex.encode` — the digits of a run of bytes;
* `WireTree.Hex.decode` — the bytes, of a given number, that a text stands for;
* `WireTree.Hex.Fault` — why a text stands for none, and its wording.
-/

set_option relaxedAutoImplicit false
set_option autoImplicit false

namespace WireTree.Hex

/-! ### Digits -/

/-- The digit for a number below 16. -/
def digit (n : Nat) : Char := Char.ofNat (if n < 10 then 48 + n else 87 + n)

/-- The number that a byte stands for as a digit. -/
def digitValue (byte : UInt8) : Option Nat :=
  let n := byte.toNat
  if 48 ≤ n ∧ n ≤ 57 then some (n - 48)
  else if 97 ≤ n ∧ n ≤ 102 then some (n - 87)
  else if 65 ≤ n ∧ n ≤ 70 then some (n - 55)
  else none

/-- The two digits of a byte. -/
def digits (byte : UInt8) : List Char := [digit (byte.toNat / 16), digit (byte.toNat % 16)]

/-- The digits of a run of bytes. -/
def encode (bytes : List UInt8) : String := String.ofList (bytes.flatMap digits)

/-! ### Reasons to refuse a text -/

/-- Why a text does not stand for the bytes asked for. -/
inductive Fault where
  /-- A byte needs two digits. -/
  | oddLength
  /-- There are more or fewer digits than the bytes need. -/
  | wrongLength
  /-- This byte, at this position, is no digit. -/
  | noDigit (byte : UInt8) (position : Nat)
deriving DecidableEq

/-- Whether a byte, taken as a character, shows up as itself between quotes. -/
def isPlain (byte : UInt8) : Bool :=
  let n := byte.toNat
  (decide (32 ≤ n) && decide (n ≤ 126) || decide (161 ≤ n)) && n != 173

/-- The number of a character, in hexadecimal without leading zeros. -/
def charNumber (byte : UInt8) : String :=
  let n := byte.toNat
  String.ofList (if n < 16 then [digit n] else digits byte)

/-- A byte as a quoted character; quotes, backslashes and what cannot be seen are escaped. -/
def quote (byte : UInt8) : String :=
  let shown : String :=
    match byte.toNat with
    | 0 => "\\0"
    | 9 => "\\t"
    | 10 => "\\n"
    | 13 => "\\r"
    | 39 => "\\'"
    | 92 => "\\\\"
    | n => if isPlain byte then (Char.ofNat n).toString
      else "\\u\x7b" ++ charNumber byte ++ "\x7d"
  "'" ++ shown ++ "'"

/-- The wording of a reason. -/
def Fault.message : Fault → String
  | oddLength => "Odd number of digits"
  | wrongLength => "Invalid string length"
  | noDigit byte position => s!"Invalid character {quote byte} at position {position}"

/-! ### Reading -/

/-- The bytes that pairs of digits stand for; `position` is the place of the first digit. -/
def decodePairs : (position : Nat) → List UInt8 → Except Fault (List UInt8)
  | position, high :: low :: rest =>
    match digitValue high, digitValue low with
    | none, _ => .error (.noDigit high position)
    | some _, none => .error (.noDigit low (position + 1))
    | some h, some l =>
      match decodePairs (position + 2) rest with
      | .ok bytes => .ok (UInt8.ofNat (16 * h + l) :: bytes)
      | .error e => .error e
  | _, _ => .ok []

/-- The `count` bytes that a text stands for. -/
def decode (count : Nat) (text : String) : Except Fault (List UInt8) :=
  let bytes := text.toUTF8.data.toList
  if bytes.length % 2 = 1 then .error .oddLength
  else if bytes.length ≠ 2 * count then .error .wrongLength
  else decodePairs 0 bytes

@[simp] theorem length_digits (byte : UInt8) : (digits byte).length = 2 := rfl

theorem digitValue_lt {byte : UInt8} {n : Nat} (h : digitValue byte = some n) : n < 16 := by
  simp only [digitValue] at h
  split at h
  · simp at h; omega
  · split at h
    · simp at h; omega
    · split at h
      · simp at h; omega
      · simp at h

end WireTree.Hex
