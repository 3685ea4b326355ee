/-
**Numbers of TOML.**

An integer is written in decimal, with a sign if one likes and without leading zeros, or without
a sign in base 16, 8 or 2; it must fit into 64 bits with a sign.  A float has a fraction or an
exponent or both, or is one of the words for infinity and for no number.  A float is kept as the
exact decimal number that is written; one beyond the largest double on the positive side is
refused.

Main definitions:

* `WireTree.Toml.readInteger` — integers;
* `WireTree.Toml.Real`, `WireTree.Toml.readReal` — floats.
-/

import WireTree.Words
import WireTree.Toml.Lexeme

set_option relaxedAutoImplicit false
set_option autoImplicit false

namespace WireTree.Toml

/-! ### Integers -/

/-- Whether a minus sign stands in front, and the characters behind the sign, if there is one. -/
def readSign : List Char → Bool × List Char
  | '-' :: rest => (true, rest)
  | '+' :: rest => (false, rest)
  | cs => (false, cs)

/-- Decimal digits without leading zeros. -/
def readDecimal : Reader (List Nat)
  | '0' :: rest => some ([0], rest)
  | cs => digits 10 cs

/-- The integer with this sign and size, if it fits into 64 bits. -/
def integerOf (negative : Bool) (n : Nat) : Option Int :=
  if negative then if n ≤ 2 ^ 63 then some (-n) else none
  else if n < 2 ^ 63 then some n else none

/-- The integer that digits stand for, and the characters behind them. -/
def finishInteger (negative : Bool) (base : Nat) (read : Option (List Nat × List Char)) :
    Option (Int × List Char) :=
  match read with
  | none => none
  | some (ds, rest) =>
    match integerOf negative (ofDigits base ds) with
    | none => none
    | some n => some (n, rest)

/-- An integer. -/
def readInteger : Reader Int
  | '0' :: 'x' :: rest => finishInteger false 16 (digits 16 rest)
  | '0' :: 'o' :: rest => finishInteger false 8 (digits 8 rest)
  | '0' :: 'b' :: rest => finishInteger false 2 (digits 2 rest)
  | cs =>
    match readSign cs with
    | (negative, cs) => finishInteger negative 10 (readDecimal cs)

/-! ### Floats -/

/-- A real number as it is written. -/
inductive Real where
  /-- The number `± mantissa * 10 ^ exponent`. -/
  | finite (negative : Bool) (mantissa : Nat) (exponent : Int)
  /-- Infinity, on one side or the other. -/
  | infinite (negative : Bool)
  /-- No number. -/
  | nan
deriving DecidableEq

/-- The least number that is rounded to infinity as a double: halfway between the largest one and
the next power of two. -/
def doubleOverflow : Nat := 2 ^ 1024 - 2 ^ 970

/-- The number of decimal digits of `n`, one for zero. -/
def decimalLength (n : Nat) : Nat := (Nat.toDigits 10 n).length

/-- Whether `mantissa * 10 ^ exponent` lies beyond the doubles.  The first two tests settle all
exponents that would make the power a huge number. -/
def overflowsDouble (mantissa : Nat) (exponent : Int) : Bool :=
  let magnitude : Int := decimalLength mantissa + exponent
  if mantissa = 0 ∨ magnitude < 300 then false
  else if 320 < magnitude then true
  else if 0 ≤ exponent then decide (doubleOverflow ≤ mantissa * 10 ^ exponent.toNat)
  else decide (doubleOverflow * 10 ^ (-exponent).toNat ≤ mantissa)

/-- The digits behind a decimal point, none if there is no point. -/
def readFraction : Reader (Option (List Nat))
  | '.' :: rest => (digits 10 rest).map fun p => (some p.1, p.2)
  | cs => some (none, cs)

/-- The exponent, if there is one. -/
def readExponent : Reader (Option Int)
  | [] => some (none, [])
  | c :: rest =>
    if c == 'e' || c == 'E' then
      match readSign rest with
      | (negative, rest) =>
        match digits 10 rest with
        | none => none
        | some (ds, rest) =>
          let n : Int := ofDigits 10 ds
          some (some (if negative then -n else n), rest)
    else some (none, c :: rest)

/-- A float in digits, with a fraction or an exponent. -/
def readDecimalReal (negative : Bool) : Reader Real := fun cs =>
  match readDecimal cs with
  | none => none
  | some (whole, cs) =>
    match readFraction cs with
    | none => none
    | some (fraction, cs) =>
      match readExponent cs with
      | none => none
      | some (exponent, cs) =>
        if fraction.isNone && exponent.isNone then none
        else
          let places := fraction.getD []
          let mantissa := ofDigits 10 (whole ++ places)
          let scale : Int := exponent.getD 0 - places.length
          if !negative && overflowsDouble mantissa scale then none
          else some (.finite negative mantissa scale, cs)

/-- A float. -/
def readReal : Reader Real := fun cs =>
  match readSign cs with
  | (negative, 'i' :: 'n' :: 'f' :: rest) => some (.infinite negative, rest)
  | (_, 'n' :: 'a' :: 'n' :: rest) => some (.nan, rest)
  | (negative, cs) => readDecimalReal negative cs

end WireTree.Toml
