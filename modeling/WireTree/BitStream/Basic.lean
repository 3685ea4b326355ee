/-
**A bounded queue of bits.**

Bits are appended at the write position and taken at the read position, up to 32 at a time and
the most significant one first; the two positions need not stand at a byte boundary.  A transfer
that asks for too much fails and changes nothing.

The bytes are kept packed: they are exactly as many as the bits written need, and the bits of the
last one that have not been written yet are zero.  The stream as a list of bits, `BitStream.bits`,
is the view in which its behaviour is described.

Main definitions:

* `WireTree.BitStream` — the bytes, the two positions and the limits;
* `WireTree.BitStream.ofLimits`, `WireTree.BitStream.ofBytes` — an empty stream, and received
  bytes;
* `WireTree.BitStream.readBits`, `WireTree.BitStream.writeBits` — the two transfers;
* `WireTree.BitStream.bits`, `WireTree.BitStream.unread` — the bits written, and those of them
  not read yet.

Main results:

* `WireTree.BitStream.readBits_of_le`, `WireTree.BitStream.writeBits_of_le` — when a transfer
  goes through, and what it leaves.
-/

import WireTree.Bits
import WireTree.Limits
import WireTree.Number.Fixed
import WireTree.BitStream.Piece

set_option relaxedAutoImplicit false
set_option autoImplicit false

namespace WireTree

/-- The most bits that a single transfer moves. -/
def maxTransferBits : Nat := 32

/-- A limit on texts that no text reaches. -/
def noTextLimit : Nat := 2 ^ 64 - 1

/-- A queue of bits in packed bytes, with a position for writing and one for reading. -/
structure BitStream where
  /-- The packed bytes. -/
  data : Array UInt8
  /-- The number of bits written. -/
  writePos : Nat
  /-- The number of bits read. -/
  readPos : Nat
  /-- The most bits that may be written. -/
  capacityBits : Nat
  /-- The most bytes a text may have. -/
  maxTextBytes : Nat
deriving DecidableEq

namespace BitStream

/-! ### Making streams -/

/-- An empty stream with the given limits. -/
def ofLimits (l : Limits) : BitStream := ⟨#[], 0, 0, l.capacityBits, l.maxTextBytes.toNat⟩

/-- An empty stream with the default limits. -/
def empty : BitStream := ofLimits {}

/-- Received bytes, all of them to be read.  However long they are, they fit. -/
def ofBytes (bytes : Array UInt8) : BitStream :=
  let l : Limits := {}
  ⟨bytes, 8 * bytes.size, 0, max l.capacityBits (8 * bytes.size), l.maxTextBytes.toNat⟩

/-- The same stream under another limit on texts. -/
def withMaxTextBytes (s : BitStream) (n : Nat) : BitStream := { s with maxTextBytes := n }

/-! ### Views -/

/-- The number of bits written and not yet read. -/
def remaining (s : BitStream) : Nat := s.writePos - s.readPos

/-- The bits written, in order. -/
def bits (s : BitStream) : List Bool := (Bits.ofBytes s.data.toList).take s.writePos

/-- The bits written and not yet read, in order. -/
def unread (s : BitStream) : List Bool := s.bits.drop s.readPos

/-! ### Positions -/

/-- Moves the read position back to the first bit. -/
def rewind (s : BitStream) : BitStream := { s with readPos := 0 }

/-- Discards all bits and keeps the limits. -/
def clear (s : BitStream) : BitStream := { s with data := #[], writePos := 0, readPos := 0 }

/-! ### Transfers -/

/-- The next `count` bits as a number. -/
def peek (s : BitStream) (count : Nat) : UInt32 :=
  (pieces s.readPos count).foldl
    (fun value p => (value <<< UInt32.ofNat p.width) ||| p.extract s.data) 0

/-- Takes the next `count` bits, at most 32, as a number. -/
def readBits (s : BitStream) (count : Nat) : Outcome BitStream UInt32 :=
  if maxTransferBits < count then (.error (.transferTooWide count), s)
  else if s.remaining < count then (.error (.underrun count s.remaining), s)
  else (.ok (s.peek count), { s with readPos := s.readPos + count })

/-- The bytes, filled up with zeros to hold `count` bits. -/
def reserve (data : Array UInt8) (count : Nat) : Array UInt8 :=
  data ++ Array.replicate ((count + 7) / 8 - data.size) 0

/-- Lays the low `count` bits of `value` into the bytes from bit position `start` on. -/
def deposit (data : Array UInt8) (start : Nat) (value : UInt32) (count : Nat) : Array UInt8 :=
  (pieces start count).foldl (fun data p => p.deposit value data) (reserve data (start + count))

/-- Appends the low `count` bits, at most 32, of `value`. -/
def writeBits (s : BitStream) (value : UInt32) (count : Nat) : Outcome BitStream Unit :=
  match s with
  | ⟨data, writePos, readPos, capacityBits, maxTextBytes⟩ =>
    if maxTransferBits < count then
      (.error (.transferTooWide count), ⟨data, writePos, readPos, capacityBits, maxTextBytes⟩)
    else if capacityBits < writePos + count then
      (.error (.overflow (writePos + count) capacityBits),
        ⟨data, writePos, readPos, capacityBits, maxTextBytes⟩)
    else
      (.ok (), ⟨deposit data writePos value count, writePos + count, readPos, capacityBits,
        maxTextBytes⟩)

/-! ### When a transfer goes through -/

theorem readBits_of_lt {s : BitStream} {count : Nat} (h : maxTransferBits < count) :
    s.readBits count = (.error (.transferTooWide count), s) := by simp [readBits, h]

theorem readBits_of_remaining_lt {s : BitStream} {count : Nat} (h : count ≤ maxTransferBits)
    (hr : s.remaining < count) :
    s.readBits count = (.error (.underrun count s.remaining), s) := by
  simp [readBits, Nat.not_lt.2 h, hr]

theorem readBits_of_le {s : BitStream} {count : Nat} (h : count ≤ maxTransferBits)
    (hr : count ≤ s.remaining) :
    s.readBits count = (.ok (s.peek count), { s with readPos := s.readPos + count }) := by
  simp [readBits, Nat.not_lt.2 h, Nat.not_lt.2 hr]

theorem writeBits_of_lt {s : BitStream} {value : UInt32} {count : Nat}
    (h : maxTransferBits < count) :
    s.writeBits value count = (.error (.transferTooWide count), s) := by
  simp [writeBits, h]

theorem writeBits_of_capacity_lt {s : BitStream} {value : UInt32} {count : Nat}
    (h : count ≤ maxTransferBits) (hc : s.capacityBits < s.writePos + count) :
    s.writeBits value count = (.error (.overflow (s.writePos + count) s.capacityBits), s) := by
  simp [writeBits, Nat.not_lt.2 h, hc]

theorem writeBits_of_le {s : BitStream} {value : UInt32} {count : Nat}
    (h : count ≤ maxTransferBits) (hc : s.writePos + count ≤ s.capacityBits) :
    s.writeBits value count =
      (.ok (), { s with
        data := deposit s.data s.writePos value count, writePos := s.writePos + count }) := by
  simp [writeBits, Nat.not_lt.2 h, Nat.not_lt.2 hc]

/-! ### Floats and signed integers -/

/-- Takes a float, 32 bits. -/
def readFloat (s : BitStream) : Outcome BitStream Binary32 :=
  match s.readBits 32 with
  | (.ok word, s) => (.ok ⟨word⟩, s)
  | (.error e, s) => (.error e, s)

/-- Appends a float, 32 bits. -/
def writeFloat (s : BitStream) (x : Binary32) : Outcome BitStream Unit := s.writeBits x.bits 32

/-- Takes a signed integer, 32 bits in two's complement. -/
def readInt32 (s : BitStream) : Outcome BitStream Int32 :=
  match s.readBits 32 with
  | (.ok word, s) => (.ok word.toInt32, s)
  | (.error e, s) => (.error e, s)

/-- Appends a signed integer, 32 bits in two's complement. -/
def writeInt32 (s : BitStream) (x : Int32) : Outcome BitStream Unit := s.writeBits x.toUInt32 32

end BitStream

end WireTree
