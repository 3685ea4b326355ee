/-
**What is read from.**

Whatever is read is read by transfers of so many bits each, and a text must also know how long it
may become.  Nothing else about a stream matters to a reader.  So readers are written for any source
of bits that has these two, and a bit stream is one such source.

Main definitions:

* `WireTree.BitSource` — sources of bits.
-/

import WireTree.BitStream.Basic

set_option relaxedAutoImplicit false
set_option autoImplicit false

namespace WireTree

/-- A source of bits. -/
class BitSource (β : Type) where
  /-- Takes the next `count` bits as a number. -/
  readBits : β → (count : Nat) → Outcome β UInt32
  /-- The most bytes a text may have. -/
  maxTextBytes : β → Nat := fun _ => noTextLimit

namespace BitSource

@[default_instance]
instance : BitSource BitStream := ⟨BitStream.readBits, BitStream.maxTextBytes⟩

@[simp, grind =] theorem readBits_stream (s : BitStream) (count : Nat) :
    readBits s count = s.readBits count := rfl

@[simp, grind =] theorem maxTextBytes_stream (s : BitStream) :
    maxTextBytes s = s.maxTextBytes := rfl

end BitSource

end WireTree
