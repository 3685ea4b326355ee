/-
**Single precision floating point numbers as bit patterns.**

A float travels as its 32 bits, so it *is* its 32 bits here: all patterns are kept apart, those of
the many not-a-numbers too.  What a pattern stands for is an exact dyadic number
`± mantissa * 2 ^ exponent`.  The way back is to round a quotient to the nearest pattern, and that
is all that arithmetic does besides computing exactly: a product, a quotient and an integer are
rounded once.

Main definitions:

* `WireTree.Binary32` — a bit pattern;
* `WireTree.Binary32.value` — what it stands for;
* `WireTree.Binary32.ofRatio` — the pattern nearest to a quotient, ties going to the even neighbour;
* `WireTree.Binary32.mul`, `WireTree.Binary32.div` — products and quotients;
* `WireTree.Binary32.ofInt32`, `WireTree.Binary32.toInt32` — the conversions from and to integers.

Main results:

* `WireTree.divRound_dist` — the rounded quotient is never more than half a unit away.
-/

import WireTree.Words

set_option relaxedAutoImplicit false
set_option autoImplicit false

namespace WireTree

/-! ### Rounding a quotient -/

/-- The integer nearest to `n / d`; of two equally near ones the even one. -/
def divRound (n d : Nat) : Nat :=
  let q := n / d
  let r := n % d
  if 2 * r < d then q else if d < 2 * r then q + 1 else q + q % 2

/-- The rounded quotient is never more than half a unit away. -/
theorem divRound_dist (n : Nat) {d : Nat} (hd : 0 < d) :
    2 * n ≤ 2 * (d * divRound n d) + d ∧ 2 * (d * divRound n d) ≤ 2 * n + d := by
  have hn : d * (n / d) + n % d = n := Nat.div_add_mod n d
  have hr : n % d < d := Nat.mod_lt n hd
  simp only [divRound]
  rcases Nat.mod_two_eq_zero_or_one (n / d) with h | h
  all_goals
    split
    · omega
    · split <;> (try rw [h]) <;> simp only [Nat.mul_add, Nat.mul_one, Nat.mul_zero] <;> omega

/-! ### Patterns and values -/

/-- A single precision number: sign, eight bits of exponent, 23 bits of fraction. -/
structure Binary32 where
  /-- The bit pattern. -/
  bits : UInt32
deriving DecidableEq

namespace Binary32

/-- What a bit pattern stands for. -/
inductive Value where
  /-- No number at all. -/
  | nan
  /-- Beyond all numbers, on one side or the other. -/
  | infinite (negative : Bool)
  /-- The number `± mantissa * 2 ^ exponent`. -/
  | finite (negative : Bool) (mantissa : Nat) (exponent : Int)
deriving DecidableEq

/-- Positive zero. -/
def zero : Binary32 := ⟨0⟩

/-- The pattern of positive infinity, which is also the number of patterns below it. -/
def infinityBits : Nat := 255 * 2 ^ 23

/-- The value of a pattern.  The exponent field 0 marks the numbers that have no implicit leading
bit, the field 255 those that are not finite. -/
def value (x : Binary32) : Value :=
  let n := x.bits.toNat
  let negative := n.testBit 31
  let field : Nat := n / 2 ^ 23 % 2 ^ 8
  let fraction := n % 2 ^ 23
  if field = 255 then if fraction = 0 then .infinite negative else .nan
  else if field = 0 then .finite negative fraction (-149)
  else .finite negative (2 ^ 23 + fraction) ((field : Int) - 150)

/-! ### Rounding to a pattern -/

/-- The last place that is kept of `n / d`, counted from the least one: 24 bits are kept, if there
are as many. -/
def lastPlace (n d : Nat) : Nat := (n / d).log2 - 23

/-- The pattern, without its sign, nearest to `n / d` times the least positive number.  Consecutive
patterns are consecutive numbers, so a mantissa that is rounded up to the next power of two needs no
treatment of its own.  Patterns do not end here at infinity. -/
def nearest (n d : Nat) : Nat :=
  lastPlace n d * 2 ^ 23 + divRound n (d * 2 ^ lastPlace n d)

/-- The bit of the sign. -/
def signBit (negative : Bool) : Nat := if negative then 2 ^ 31 else 0

/-- The pattern nearest to `± n / d * 2 ^ e`, ties going to the even neighbour. -/
def ofRatio (negative : Bool) (n d : Nat) (e : Int) : Binary32 :=
  let m := nearest (n * 2 ^ (e + 149).toNat) (d * 2 ^ (-(e + 149)).toNat)
  ⟨UInt32.ofNat (signBit negative + min m infinityBits)⟩

/-! ### Arithmetic -/

/-- Beyond all numbers, on one side or the other. -/
def infinity (negative : Bool) : Binary32 := ⟨UInt32.ofNat (signBit negative + infinityBits)⟩

/-- A pattern that stands for no number. -/
def notANumber : Binary32 := ⟨UInt32.ofNat (infinityBits + 2 ^ 22)⟩

/-- The product, rounded. -/
def mul (x y : Binary32) : Binary32 :=
  match x.value, y.value with
  | .nan, _ | _, .nan => notANumber
  | .infinite s, .infinite t => infinity (s != t)
  | .infinite s, .finite t n _ => if n = 0 then notANumber else infinity (s != t)
  | .finite s m _, .infinite t => if m = 0 then notANumber else infinity (s != t)
  | .finite s m e, .finite t n f => ofRatio (s != t) (m * n) 1 (e + f)

/-- The quotient, rounded. -/
def div (x y : Binary32) : Binary32 :=
  match x.value, y.value with
  | .nan, _ | _, .nan => notANumber
  | .infinite _, .infinite _ => notANumber
  | .infinite s, .finite t _ _ => infinity (s != t)
  | .finite s _ _, .infinite t => ofRatio (s != t) 0 1 0
  | .finite s m e, .finite t n f =>
    if n = 0 then if m = 0 then notANumber else infinity (s != t)
    else ofRatio (s != t) m n (e - f)

/-- The float nearest to an integer. -/
def ofInt32 (n : Int32) : Binary32 := ofRatio (decide (n.toInt < 0)) n.toInt.natAbs 1 0

/-- The 32-bit integer nearest to `n`. -/
def clamp (n : Int) : Int32 := Int32.ofInt (max (-2 ^ 31) (min (2 ^ 31 - 1) n))

/-- The whole part of `m * 2 ^ e`. -/
def wholePart (m : Nat) (e : Int) : Nat := m * 2 ^ e.toNat / 2 ^ (-e).toNat

/-- The integer a float stands for: what is behind the point is dropped, what is out of range
becomes the end of the range, and what is no number becomes zero. -/
def toInt32 (x : Binary32) : Int32 :=
  match x.value with
  | .nan => 0
  | .infinite negative => if negative then Int32.minValue else Int32.maxValue
  | .finite negative m e =>
    let n : Int := wholePart m e
    clamp (if negative then -n else n)

end Binary32

end WireTree
