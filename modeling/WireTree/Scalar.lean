/-
**Leaf values.**

A leaf of a component tree holds one of fourteen sorts of value.  All of them but texts occupy a
fixed run of cells: their value decides what is in the cells, never how many there are or how wide
they are.  So a leaf that is not a text is written by writing its cells and read by reading as
many words of the same widths, and a failed read leaves it as it was.

Main definitions:

* `WireTree.WireInt` — integers with a width on the wire;
* `WireTree.Scalar` — the sorts of leaf value;
* `WireTree.Scalar.size`, `WireTree.Scalar.cells` — the number of bits, and the cells, of a leaf;
* `WireTree.Scalar.measure` — the number of bits by what the leaf remembers;
* `WireTree.Scalar.fill` — a leaf of the same sort with the words read;
* `WireTree.Scalar.read`, `WireTree.Scalar.write`, `WireTree.Scalar.clear`.
-/

import WireTree.BitSet
import WireTree.BoundedInt
import WireTree.Digest
import WireTree.Number.Fixed
import WireTree.BitStream.Text

set_option relaxedAutoImplicit false
set_option autoImplicit false

namespace WireTree

/-! ### Integers on the wire -/

/-- Integers that are written in a fixed number of bits, in two's complement if they are signed. -/
class WireInt (α : Type) where
  /-- The number of bits. -/
  width : Nat
  /-- The bits, in the low end of a word; a negative number fills the rest with ones. -/
  toWord : α → UInt32
  /-- The integer that the low bits of a word stand for. -/
  ofWord : UInt32 → α

instance : WireInt Bool := ⟨1, fun b => if b then 1 else 0, fun w => w != 0⟩

instance : WireInt UInt8 := ⟨8, UInt8.toUInt32, UInt32.toUInt8⟩

instance : WireInt Int8 := ⟨8, fun n => n.toInt32.toUInt32, fun w => w.toUInt8.toInt8⟩

instance : WireInt UInt16 := ⟨16, UInt16.toUInt32, UInt32.toUInt16⟩

instance : WireInt Int16 := ⟨16, fun n => n.toInt32.toUInt32, fun w => w.toUInt16.toInt16⟩

instance : WireInt UInt32 := ⟨32, id, id⟩

instance : WireInt Int32 := ⟨32, Int32.toUInt32, UInt32.toInt32⟩

/-- The cell of an integer. -/
def WireInt.cell {α : Type} [WireInt α] (n : α) : Cell := ⟨toWord n, width α⟩

/-! ### Sorts of leaf value -/

/-- A leaf value. -/
inductive Scalar where
  /-- A truth value, one bit. -/
  | bool (b : Bool)
  /-- An unsigned integer of 8 bits. -/
  | u8 (n : UInt8)
  /-- A signed integer of 8 bits. -/
  | s8 (n : Int8)
  /-- An unsigned integer of 16 bits. -/
  | u16 (n : UInt16)
  /-- A signed integer of 16 bits. -/
  | s16 (n : Int16)
  /-- An unsigned integer of 32 bits. -/
  | u32 (n : UInt32)
  /-- A signed integer of 32 bits. -/
  | s32 (n : Int32)
  /-- An integer between two bounds. -/
  | bounded (r : BoundedInt)
  /-- A float of 32 bits. -/
  | float (x : Binary32)
  /-- A text, ended by a zero byte. -/
  | text (t : String)
  /-- Two coordinates of 32 bits. -/
  | vec2 (v : Vec2)
  /-- Three coordinates of 32 bits. -/
  | vec3 (v : Vec3)
  /-- A set of bits. -/
  | bits (b : BitSet)
  /-- A digest, sixteen bytes. -/
  | digest (d : Digest)
deriving DecidableEq

/-- The number of bits of a bit set whose length is not given. -/
def defaultBitCount : Nat := 32

namespace Scalar

/-- The cell of a coordinate. -/
def coordinate (c : Fixed) : Cell := WireInt.cell c.raw

/-- The number of bits the leaf takes on the wire. -/
def size : Scalar → Nat
  | bool _ => 1
  | u8 _ | s8 _ => 8
  | u16 _ | s16 _ => 16
  | u32 _ | s32 _ | float _ => 32
  | bounded r => bitsForSpan r.lower r.upper
  | text t => 8 * (t.utf8ByteSize + 1)
  | vec2 _ => 64
  | vec3 _ => 96
  | bits b => b.len
  | digest _ => 128

/-- The cells of a leaf, in the order in which they are written. -/
def cells : Scalar → List Cell
  | bool b => [WireInt.cell b]
  | u8 n => [WireInt.cell n]
  | s8 n => [WireInt.cell n]
  | u16 n => [WireInt.cell n]
  | s16 n => [WireInt.cell n]
  | u32 n => [WireInt.cell n]
  | s32 n => [WireInt.cell n]
  | bounded r => [⟨r.offset, r.width⟩]
  | float x => [⟨x.bits, 32⟩]
  | text t => textCells t
  | vec2 v => [coordinate v.x, coordinate v.y]
  | vec3 v => [coordinate v.x, coordinate v.y, coordinate v.z]
  | bits b => b.cells
  | digest d => d.cells

/-- The widths of the cells. -/
def widths (s : Scalar) : List Nat := s.cells.map Cell.width

/-- A leaf of the same sort with the words read in place of its cells. -/
def fill : Scalar → List UInt32 → Scalar
  | bool _, [w] => bool (WireInt.ofWord w)
  | u8 _, [w] => u8 (WireInt.ofWord w)
  | s8 _, [w] => s8 (WireInt.ofWord w)
  | u16 _, [w] => u16 (WireInt.ofWord w)
  | s16 _, [w] => s16 (WireInt.ofWord w)
  | u32 _, [w] => u32 (WireInt.ofWord w)
  | s32 _, [w] => s32 (WireInt.ofWord w)
  | bounded r, [w] => bounded (r.ofOffset w)
  | float _, [w] => float ⟨w⟩
  | vec2 _, [x, y] => vec2 ⟨⟨x.toInt32⟩, ⟨y.toInt32⟩⟩
  | vec3 _, [x, y, z] => vec3 ⟨⟨x.toInt32⟩, ⟨y.toInt32⟩, ⟨z.toInt32⟩⟩
  | bits b, words => bits (b.withWords words)
  | digest d, words => digest (d.ofWords words)
  | s, _ => s

/-- The canonical empty value: zero, the empty text, no bit set; bounds and lengths stay. -/
def clear : Scalar → Scalar
  | bool _ => bool false
  | u8 _ => u8 0
  | s8 _ => s8 0
  | u16 _ => u16 0
  | s16 _ => s16 0
  | u32 _ => u32 0
  | s32 _ => s32 0
  | bounded r => bounded r.clear
  | float _ => float .zero
  | text _ => text ""
  | vec2 _ => vec2 .zero
  | vec3 _ => vec3 .zero
  | bits b => bits b.clear
  | digest d => digest d.clear

/-- The size of a leaf by the width it remembers, if it remembers one, and the leaf with its width
remembered. -/
def measure : Scalar → Nat × Scalar
  | bounded r => (r.width, bounded r.remember)
  | s => (s.size, s)

/-! ### The wire -/

/-- Appends a leaf and tells how many bits it took. -/
def write (s : Scalar) (stream : BitStream) : Outcome BitStream Nat :=
  let moved : Outcome BitStream Unit :=
    match s with
    | text t => stream.writeText t
    | s => stream.writeCells s.cells
  match moved with
  | (.ok _, stream) => (.ok s.measure.1, stream)
  | (.error e, stream) => (.error e, stream)

/-- Takes a leaf of the same sort and tells how many bits it took; on failure the leaf stays as it
was. -/
def read {β : Type} [BitSource β] (s : Scalar) (source : β) : Outcome (Scalar × β) Nat :=
  match s with
  | text t =>
    match BitSource.readText source with
    | (.ok t', source) => (.ok (text t').size, text t', source)
    | (.error e, source) => (.error e, text t, source)
  | s =>
    match BitSource.readWords source s.widths with
    | (.ok words, source) => (.ok s.measure.1, s.fill words, source)
    | (.error e, source) => (.error e, s, source)

/-! ### Sizes -/

@[simp] theorem size_measure (s : Scalar) : s.measure.2.size = s.size := by
  cases s <;> rfl

end Scalar

end WireTree
