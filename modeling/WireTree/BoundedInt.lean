/-
**Integers between two bounds.**

An integer that is known to lie between two bounds is written as its distance from the lower one,
in the fewest bits that the distance between the bounds needs.  Bounds may span all 32-bit
integers.  A value outside its bounds is not refused: its distance from the lower bound is taken
modulo `2 ^ 32`, and the low bits of that are written.

The width is remembered, until the bounds change, when the size of a component is asked for.
Reading and writing could remember it as well, but here they do not.  That cannot be told from
outside: a width that is remembered is always the width of the bounds, so every size, read and write
that follows is the same either way.

Main definitions:

* `WireTree.bitsForSpan` — the width for a pair of bounds;
* `WireTree.BoundedInt` — a value, its bounds, and the width if it is remembered;
* `WireTree.BoundedInt.offset`, `WireTree.BoundedInt.ofOffset` — the distance from the lower
  bound, and back;
* `WireTree.BoundedInt.clear` — zero, or the bound nearest to it.

Main results:

* `WireTree.BoundedInt.ofOffset_offset` — a value is recovered from its distance;
* `WireTree.BoundedInt.inBounds_clear` — a cleared value lies within the bounds.
-/

import WireTree.Error

set_option relaxedAutoImplicit false
set_option autoImplicit false

namespace WireTree

/-- The number of binary digits of `n`, none for zero. -/
def bitLength (n : Nat) : Nat := if n = 0 then 0 else n.log2 + 1

/-- The fewest bits for every distance up to that between the bounds; none if the bounds are
inverted. -/
def bitsForSpan (lower upper : Int32) : Nat := bitLength (upper.toInt - lower.toInt).toNat

/-- An integer and its bounds. -/
structure BoundedInt where
  /-- The integer, which may lie outside the bounds. -/
  value : Int32
  /-- The lower bound. -/
  lower : Int32
  /-- The upper bound. -/
  upper : Int32
  /-- The width for these bounds, once it has been computed for a size. -/
  cachedBits : Option Nat := none
  /-- The bounds are in order. -/
  lower_le_upper : lower ≤ upper
deriving DecidableEq

namespace BoundedInt

/-- The failure that inverted bounds give. -/
def invertedBounds (lower upper : Int32) : WireError := .invertedBounds lower.toInt upper.toInt

/-- Zero between the smallest and the largest integer. -/
def full : BoundedInt := ⟨0, Int32.minValue, Int32.maxValue, none, by decide⟩

/-- A value with bounds, which must be in order. -/
def make (value lower upper : Int32) : Except WireError BoundedInt :=
  if h : lower ≤ upper then .ok ⟨value, lower, upper, none, h⟩
  else .error (invertedBounds lower upper)

/-- Whether the value lies within the bounds. -/
def inBounds (r : BoundedInt) : Bool := decide (r.lower ≤ r.value) && decide (r.value ≤ r.upper)

/-- Another value within the same bounds. -/
def set (r : BoundedInt) (value : Int32) : BoundedInt := { r with value }

/-- Other bounds, which must be in order; the value stays, the width is forgotten. -/
def setBounds (r : BoundedInt) (lower upper : Int32) : Except WireError BoundedInt :=
  if h : lower ≤ upper then .ok ⟨r.value, lower, upper, none, h⟩
  else .error (invertedBounds lower upper)

/-- Zero, or the bound nearest to zero. -/
def clear (r : BoundedInt) : BoundedInt :=
  { r with value := if r.upper < 0 then r.upper else if 0 < r.lower then r.lower else 0 }

/-- Bounds, which must be in order, with the value that `clear` gives. -/
def withBounds (lower upper : Int32) : Except WireError BoundedInt :=
  match make 0 lower upper with
  | .ok r => .ok r.clear
  | .error e => .error e

/-- The width of the value on the wire. -/
def width (r : BoundedInt) : Nat := r.cachedBits.getD (bitsForSpan r.lower r.upper)

/-- The same with the width remembered. -/
def remember (r : BoundedInt) : BoundedInt := { r with cachedBits := some r.width }

/-- The distance of the value from the lower bound, modulo `2 ^ 32`. -/
def offset (r : BoundedInt) : UInt32 := (r.value - r.lower).toUInt32

/-- The value at a distance from the lower bound, modulo `2 ^ 32`. -/
def ofOffset (r : BoundedInt) (offset : UInt32) : BoundedInt :=
  { r with value := r.lower + offset.toInt32 }

@[simp] theorem width_remember (r : BoundedInt) : r.remember.width = r.width := rfl

@[simp] theorem width_set (r : BoundedInt) (value : Int32) : (r.set value).width = r.width := rfl

@[simp] theorem width_clear (r : BoundedInt) : r.clear.width = r.width := rfl

@[simp] theorem width_ofOffset (r : BoundedInt) (offset : UInt32) :
    (r.ofOffset offset).width = r.width := rfl

/-- A value is recovered from its distance. -/
@[simp] theorem ofOffset_offset (r : BoundedInt) : r.ofOffset r.offset = r := by
  have h : r.lower + (r.value - r.lower) = r.value := by
    rw [Int32.add_comm, Int32.sub_add_cancel]
  simp [ofOffset, offset, h]

/-- A distance is recovered from its value. -/
@[simp] theorem offset_ofOffset (r : BoundedInt) (offset : UInt32) :
    (r.ofOffset offset).offset = offset := by
  have h : r.lower + offset.toInt32 - r.lower = offset.toInt32 := by
    rw [Int32.add_comm, Int32.add_sub_cancel]
  simp [ofOffset, BoundedInt.offset, h]

/-- A cleared value lies within the bounds. -/
theorem inBounds_clear (r : BoundedInt) : r.clear.inBounds = true := by
  have h := Int32.le_iff_toInt_le.1 r.lower_le_upper
  simp only [inBounds, clear, Bool.and_eq_true, decide_eq_true_eq, Int32.le_iff_toInt_le,
    Int32.lt_iff_toInt_lt] at *
  split
  · simp; omega
  · split <;> simp_all

end BoundedInt

end WireTree
