/-
**Runs of numbers.**

Most values occupy a fixed run of numbers of known widths: a vector three of 32 bits, a digest
sixteen of eight.  Such a number with its width is a *cell*.  A run is written cell by cell and
read width by width, from any source of bits, and stops at the first transfer that fails; what was
moved before stays moved.

Main definitions:

* `WireTree.Cell` — a number and the width it is written in;
* `WireTree.BitStream.writeCells`, `WireTree.BitSource.readWords` — a run in either direction.
-/

import WireTree.BitStream.Source

set_option relaxedAutoImplicit false
set_option autoImplicit false

namespace WireTree

/-- A number and the number of bits it is written in. -/
structure Cell where
  /-- The number, of which the low `width` bits count. -/
  word : UInt32
  /-- The number of bits. -/
  width : Nat
deriving DecidableEq

namespace Cell

/-- The number of bits of a run of cells. -/
def totalWidth (cells : List Cell) : Nat := (cells.map Cell.width).sum

@[simp] theorem totalWidth_nil : totalWidth [] = 0 := rfl

@[simp] theorem totalWidth_cons (c : Cell) (cells : List Cell) :
    totalWidth (c :: cells) = c.width + totalWidth cells := by simp [totalWidth]

end Cell

/-- Takes numbers of the given widths one after the other. -/
def BitSource.readWords {β : Type} [BitSource β] (s : β) : List Nat → Outcome β (List UInt32)
  | [] => (.ok [], s)
  | width :: widths =>
    match readBits s width with
    | (.error e, s) => (.error e, s)
    | (.ok word, s) =>
      match readWords s widths with
      | (.error e, s) => (.error e, s)
      | (.ok words, s) => (.ok (word :: words), s)

/-- Takes numbers of the given widths one after the other. -/
def BitStream.readWords (s : BitStream) (widths : List Nat) : Outcome BitStream (List UInt32) :=
  BitSource.readWords s widths

@[simp, grind =] theorem BitSource.readWords_stream (s : BitStream) (widths : List Nat) :
    readWords s widths = s.readWords widths := rfl

namespace BitStream

/-- Appends the cells one after the other. -/
def writeCells (s : BitStream) : List Cell → Outcome BitStream Unit
  | [] => (.ok (), s)
  | c :: cells =>
    match s.writeBits c.word c.width with
    | (.ok _, s) => writeCells s cells
    | (.error e, s) => (.error e, s)

@[simp] theorem writeCells_nil (s : BitStream) : s.writeCells [] = (.ok (), s) := rfl

@[simp] theorem readWords_nil (s : BitStream) : s.readWords [] = (.ok [], s) := rfl

theorem readWords_cons (s : BitStream) (width : Nat) (widths : List Nat) :
    s.readWords (width :: widths) =
      match s.readBits width with
      | (.error e, s) => (.error e, s)
      | (.ok word, s) =>
        match s.readWords widths with
        | (.error e, s) => (.error e, s)
        | (.ok words, s) => (.ok (word :: words), s) := by
  rw [readWords, BitSource.readWords, BitSource.readBits_stream]
  rcases s.readBits width with ⟨_ | word, s₁⟩
  · rfl
  · simp only [BitSource.readWords_stream]
    rcases s₁.readWords widths with ⟨_ | words, s₂⟩ <;> rfl

end BitStream

end WireTree
