/-
**Texts in a bit stream.**

A text travels as its UTF-8 bytes with a zero byte behind them.  A text with a zero byte inside
could not be told from a shorter one and is refused, and so is one that is longer than the stream
admits; both are found out before a single bit is written.  A reader stops at the first zero byte,
or as soon as it has taken one byte more than is admitted, or when no whole byte is left.

Main definitions:

* `WireTree.BitStream.textFault` — why a text cannot be written, if it cannot;
* `WireTree.BitStream.writeText`, `WireTree.BitSource.readText` — the two directions;
* `WireTree.BitSource.readTerminated` — the bytes up to the next zero byte.
-/

import WireTree.BitStream.Cell

set_option relaxedAutoImplicit false
set_option autoImplicit false

namespace WireTree

/-- The bytes of a text and its terminator, as cells. -/
def textCells (text : String) : List Cell :=
  (text.toUTF8.data.toList ++ [0]).map fun byte : UInt8 => ⟨byte.toUInt32, 8⟩

namespace BitSource

variable {β : Type} [BitSource β]

/-- Takes bytes up to the next zero byte, which is taken too but is no part of the answer; behind
those that have been `taken` there is room for `room` more. -/
def readTerminated (room : Nat) (taken : Array UInt8) (s : β) : Outcome β (Array UInt8) :=
  match readBits s 8 with
  | (.error e, s) => (.error e, s)
  | (.ok byte, s) =>
    if byte = 0 then (.ok taken, s)
    else
      match room with
      | 0 => (.error (.textTooLong (taken.size + 1) taken.size), s)
      | room + 1 => readTerminated room (taken.push byte.toUInt8) s

/-- Takes a text and its terminator. -/
def readText (s : β) : Outcome β String :=
  match readTerminated (maxTextBytes s) #[] s with
  | (.error e, s) => (.error e, s)
  | (.ok bytes, s) =>
    match String.fromUTF8? ⟨bytes⟩ with
    | some text => (.ok text, s)
    | none => (.error (.invalidText WireError.notUtf8), s)

end BitSource

/-- Takes a text and its terminator. -/
def BitStream.readText (s : BitStream) : Outcome BitStream String := BitSource.readText s

@[simp, grind =] theorem BitSource.readText_stream (s : BitStream) : readText s = s.readText := rfl

namespace BitStream

/-- Why a text cannot be written, if it cannot: it is too long, or else it has a zero byte. -/
def textFault (s : BitStream) (text : String) : Option WireError :=
  if s.maxTextBytes < text.utf8ByteSize then
    some (.textTooLong text.utf8ByteSize s.maxTextBytes)
  else if text.toUTF8.data.contains 0 then some (.invalidText WireError.interiorNul)
  else none

/-- Appends a text and its terminator. -/
def writeText (s : BitStream) (text : String) : Outcome BitStream Unit :=
  match s.textFault text with
  | some e => (.error e, s)
  | none => s.writeCells (textCells text)

theorem textFault_eq_none_iff {s : BitStream} {text : String} :
    s.textFault text = none ↔
      text.utf8ByteSize ≤ s.maxTextBytes ∧ (0 : UInt8) ∉ text.toUTF8.data := by
  simp only [textFault]
  split
  · simp; omega
  · split <;> simp_all

theorem writeText_of_fault {s : BitStream} {text : String} {e : WireError}
    (h : s.textFault text = some e) : s.writeText text = (.error e, s) := by
  simp [writeText, h]

theorem writeText_of_admitted {s : BitStream} {text : String} (h : s.textFault text = none) :
    s.writeText text = s.writeCells (textCells text) := by simp [writeText, h]

end BitStream

end WireTree
