/-
**Digests.**

A digest is sixteen bytes, such as the fingerprint of a file, and is shown as 32 lowercase
hexadecimal digits.  The digits are kept beside the bytes and are made anew only when the bytes
change.  On the wire the bytes stand as they are.

Main definitions:

* `WireTree.Digest` — the bytes and their digits;
* `WireTree.Digest.ofBytes`, `WireTree.Digest.setBytes` — a digest with given bytes;
* `WireTree.Digest.setText` — the digest that a text stands for, or the reason why there is none;
* `WireTree.Digest.cells`, `WireTree.Digest.ofWords` — the bytes as they are moved.
-/

import WireTree.Digest.Hex
import WireTree.BitStream.Cell

set_option relaxedAutoImplicit false
set_option autoImplicit false

namespace WireTree

/-- Sixteen bytes and their hexadecimal digits. -/
structure Digest where
  /-- The bytes. -/
  bytes : Vector UInt8 16
  /-- Their digits. -/
  text : String
deriving DecidableEq

namespace Digest

/-- The number of bytes of a digest. -/
def byteCount : Nat := 16

/-- The digest with the given bytes. -/
def ofBytes (bytes : Vector UInt8 16) : Digest := ⟨bytes, Hex.encode bytes.toList⟩

/-- The digest of sixteen zero bytes. -/
def zero : Digest := ofBytes (Vector.replicate 16 0)

/-- Sixteen bytes from a list, which is filled up with zeros. -/
def pack (bytes : List UInt8) : Vector UInt8 16 := Vector.ofFn fun i => bytes.getD i 0

/-- Gives the digest other bytes; the digits are made anew if the bytes differ. -/
def setBytes (d : Digest) (bytes : Vector UInt8 16) : Digest :=
  if bytes = d.bytes then d else ofBytes bytes

/-- Gives the digest the bytes that a text of 32 digits stands for. -/
def setText (d : Digest) (text : String) : Except WireError Digest :=
  match Hex.decode byteCount text with
  | .ok bytes => .ok (d.setBytes (pack bytes))
  | .error e => .error (.invalidDigest ("'" ++ text ++ "': " ++ e.message))

/-- The digest that a text of 32 digits stands for. -/
def ofText (text : String) : Except WireError Digest := zero.setText text

/-- All bytes zero. -/
def clear (d : Digest) : Digest := d.setBytes (Vector.replicate 16 0)

/-- The bytes as they are written. -/
def cells (d : Digest) : List Cell := d.bytes.toList.map fun byte => ⟨byte.toUInt32, 8⟩

/-- Gives the digest the bytes read. -/
def ofWords (d : Digest) (words : List UInt32) : Digest :=
  d.setBytes (pack (words.map UInt32.toUInt8))

@[simp] theorem bytes_ofBytes (bytes : Vector UInt8 16) : (ofBytes bytes).bytes = bytes := rfl

@[simp] theorem bytes_setBytes (d : Digest) (bytes : Vector UInt8 16) :
    (d.setBytes bytes).bytes = bytes := by
  simp only [setBytes]
  split
  · simp_all
  · rfl

/-- The digits stay in step with the bytes. -/
theorem text_setBytes {d : Digest} (h : d.text = Hex.encode d.bytes.toList)
    (bytes : Vector UInt8 16) : (d.setBytes bytes).text = Hex.encode bytes.toList := by
  simp only [setBytes]
  split
  · simp_all
  · rfl

end Digest

end WireTree
