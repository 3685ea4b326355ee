/-
**What can go wrong while components are assembled, written and read.**

Every operation of the library fails with one of the causes listed here.  A cause carries the
numbers or names it is about and nothing else; its wording is the business of one function,
`WireError.message`.

A failing operation may already have moved bits or changed a component, and both stay as they
are.  Such an operation therefore answers with an `Outcome`: the result together with the state
it leaves, whether or not it failed.

Main definitions:

* `WireTree.WireError` — the causes;
* `WireTree.WireError.message` — the wording of a cause;
* `WireTree.WireError.isProtocolViolation` — whether the cause lies in the bits received, and not
  in a local misuse;
* `WireTree.Outcome` — a result, and the state left behind.
-/

set_option relaxedAutoImplicit false
set_option autoImplicit false

namespace WireTree

/-- The causes of failure. -/
inductive WireError where
  /-- More bits were asked for than are left to read. -/
  | underrun (requested available : Nat)
  /-- A transfer would end past the capacity; `requested` is the bit position it would end at. -/
  | overflow (requested capacity : Nat)
  /-- A single transfer moves at most 32 bits. -/
  | transferTooWide (count : Nat)
  /-- A bit set has no bit of this index. -/
  | bitIndex (index len : Nat)
  /-- An array has no element of this index. -/
  | elementIndex (index len : Nat)
  /-- A text cannot be written, or the bytes read are no text. -/
  | invalidText (reason : String)
  /-- A text is longer than the stream admits. -/
  | textTooLong (len max : Nat)
  /-- The lower bound lies above the upper one. -/
  | invertedBounds (lower upper : Int)
  /-- An array holds, or would hold, a number of elements it does not admit. -/
  | countOutOfRange (count min max : Nat)
  /-- A text is not the hexadecimal form of a digest. -/
  | invalidDigest (reason : String)
  /-- The group already has a field of this name. -/
  | duplicateField (name : String)
  /-- The group has no field of this name. -/
  | unknownField (name : String)
  /-- Presence is set by name, so an optional field needs one. -/
  | unnamedOptional
  /-- Only optional fields can be marked present or absent. -/
  | fieldNotOptional (name : String)
  /-- A component is of another variant than the one asked for. -/
  | variantMismatch (expected found : String)
  /-- No message type has this tag. -/
  | unknownMessageType (id : Nat)
  /-- The limits could not be read, saved or accepted. -/
  | invalidSettings (reason : String)
deriving DecidableEq

namespace WireError

/-- Why a text with a zero byte inside cannot be written: the zero would end it early. -/
def interiorNul : String := "string contains an interior NUL byte"

/-- Why a run of bytes is no text. -/
def notUtf8 : String := "string bytes are not valid UTF-8"

/-- The wording of a cause. -/
def message : WireError → String
  | underrun requested available =>
      s!"Buffer under-run: requested {requested} bits, {available} available"
  | overflow requested capacity =>
      s!"Buffer overflow: writing {requested} bits exceeds capacity of {capacity} bits"
  | transferTooWide count => s!"Invalid bit count: {count} (at most 32 bits per transfer)"
  | bitIndex index len => s!"Bit index {index} out of range for bit field of {len} bits"
  | elementIndex index len => s!"Element index {index} out of range for array of {len} elements"
  | invalidText reason => s!"Invalid string: {reason}"
  | textTooLong len max => s!"String too long: {len} bytes (maximum: {max})"
  | invertedBounds lower upper =>
      s!"Invalid bounds: lower {lower} is greater than upper {upper}"
  | countOutOfRange count min max => s!"Element count {count} outside of [{min}, {max}]"
  | invalidDigest reason => s!"Invalid hash digest: {reason}"
  | duplicateField name => s!"Duplicate field name: {name}"
  | unknownField name => s!"Unknown field: {name}"
  | unnamedOptional => "Optional fields must be named"
  | fieldNotOptional name => s!"Field is not optional: {name}"
  | variantMismatch expected found => s!"Type mismatch: expected {expected}, found {found}"
  | unknownMessageType id => s!"Unknown message type: {id}"
  | invalidSettings reason => s!"Configuration error: {reason}"

/-- Whether the bits being read break the rules of the wire, as opposed to a local misuse. -/
def isProtocolViolation : WireError → Bool
  | underrun .. | invalidText _ | textTooLong .. | countOutOfRange .. | unknownMessageType _ =>
      true
  | _ => false

end WireError

/-- What an operation answers, and the state it leaves, whether or not it failed. -/
abbrev Outcome (σ α : Type) := Except WireError α × σ

end WireTree
