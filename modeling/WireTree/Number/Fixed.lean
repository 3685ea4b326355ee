/-
**Fixed-point numbers and vectors.**

A coordinate is a signed 32-bit integer that counts 65536ths: sixteen bits before the point and
sixteen behind it.  Floats are turned into coordinates and back with the arithmetic of floats: a
float is multiplied by 65536 before it is made an integer, and divided by as much after it was made
from one.

Main definitions:

* `WireTree.Fixed` — a coordinate;
* `WireTree.Fixed.ofBinary32`, `WireTree.Fixed.toBinary32` — the two conversions;
* `WireTree.Vec2`, `WireTree.Vec3` — points of the plane and of space.
-/

import WireTree.Number.Binary32

set_option relaxedAutoImplicit false
set_option autoImplicit false

namespace WireTree

/-- A number in 65536ths. -/
structure Fixed where
  /-- How many 65536ths. -/
  raw : Int32
deriving DecidableEq

namespace Fixed

/-- The number of bits behind the point. -/
def fractionBits : Nat := 16

/-- The number one, in 65536ths. -/
def unit : Int32 := Int32.ofNat (2 ^ fractionBits)

/-- Zero. -/
def zero : Fixed := ⟨0⟩

/-- The coordinate a float stands for, by its product with 65536. -/
def ofBinary32 (x : Binary32) : Fixed := ⟨(x.mul (.ofInt32 unit)).toInt32⟩

/-- The float that a coordinate stands for, by a quotient by 65536. -/
def toBinary32 (v : Fixed) : Binary32 := (Binary32.ofInt32 v.raw).div (.ofInt32 unit)

end Fixed

/-- A point of the plane. -/
structure Vec2 where
  /-- The first coordinate. -/
  x : Fixed
  /-- The second coordinate. -/
  y : Fixed
deriving DecidableEq

/-- A point of space. -/
structure Vec3 where
  /-- The first coordinate. -/
  x : Fixed
  /-- The second coordinate. -/
  y : Fixed
  /-- The third coordinate. -/
  z : Fixed
deriving DecidableEq

namespace Vec2

/-- The origin. -/
def zero : Vec2 := ⟨.zero, .zero⟩

/-- The point nearest to a pair of floats, coordinate by coordinate. -/
def ofBinary32 (x y : Binary32) : Vec2 := ⟨.ofBinary32 x, .ofBinary32 y⟩

/-- The floats nearest to the coordinates. -/
def toBinary32 (v : Vec2) : Binary32 × Binary32 := (v.x.toBinary32, v.y.toBinary32)

end Vec2

namespace Vec3

/-- The origin. -/
def zero : Vec3 := ⟨.zero, .zero, .zero⟩

/-- The point nearest to a triple of floats, coordinate by coordinate. -/
def ofBinary32 (x y z : Binary32) : Vec3 := ⟨.ofBinary32 x, .ofBinary32 y, .ofBinary32 z⟩

/-- The floats nearest to the coordinates. -/
def toBinary32 (v : Vec3) : Binary32 × Binary32 × Binary32 :=
  (v.x.toBinary32, v.y.toBinary32, v.z.toBinary32)

end Vec3

end WireTree
