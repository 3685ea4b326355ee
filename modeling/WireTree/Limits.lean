/-
**The limits of a bit stream.**

A stream is limited in the bytes it may hold and in the bytes a single text may have.  Both are
64-bit numbers that anyone may set; `Limits.problems` lists what speaks against a choice.  A text
travels with a zero byte behind it, so a limit on texts fits a buffer only if it is strictly
smaller than the buffer.

Main definitions:

* `WireTree.Limits`, with the defaults as the values of its fields;
* `WireTree.Limits.capacityBits` — the capacity in bits, held below `2 ^ 64`;
* `WireTree.Limits.problems`, `WireTree.Limits.check` — what is wrong with a choice of limits.
-/

import WireTree.Words
import WireTree.Error

set_option relaxedAutoImplicit false
set_option autoImplicit false

namespace WireTree

/-- The most bits a message may have: its size is announced in a 16-bit number. -/
def maxMessageBits : Nat := 2 ^ 16 - 1

/-- The bytes that hold the largest message. -/
def defaultMaxBufferBytes : Nat := (maxMessageBits + 7) / 8

/-- The longest text admitted by default, in bytes and without its terminator. -/
def defaultMaxTextBytes : Nat := 1024

/-- The most elements an array admits by default. -/
def defaultArrayMaxCount : Nat := 65535

/-- How many bytes a stream may hold, and how many bytes a text in it may have. -/
structure Limits where
  /-- The most bytes a stream may hold. -/
  maxBufferBytes : UInt64 := UInt64.ofNat defaultMaxBufferBytes
  /-- The most bytes a text may have, its terminator left out. -/
  maxTextBytes : UInt64 := UInt64.ofNat defaultMaxTextBytes
deriving DecidableEq

namespace Limits

/-- The capacity of a stream in bits, cut off at the largest 64-bit number. -/
def capacityBits (l : Limits) : Nat := min (8 * l.maxBufferBytes.toNat) (2 ^ 64 - 1)

/-- The largest buffer that is accepted without complaint: 64 MiB. -/
def maxSensibleBytes : Nat := 64 * 1024 * 1024

/-- What may be wrong with a choice of limits. -/
inductive Problem where
  /-- The buffer cannot hold a single byte. -/
  | emptyBuffer
  /-- The buffer is larger than is sensible. -/
  | bufferTooLarge (bytes : Nat)
  /-- No text but the empty one is admitted. -/
  | emptyText
  /-- The longest text and its terminator do not fit into the buffer. -/
  | textOutgrowsBuffer (textBytes bufferBytes : Nat)
deriving DecidableEq

/-- The wording of a problem. -/
def Problem.message : Problem → String
  | emptyBuffer => "Max buffer size cannot be 0"
  | bufferTooLarge bytes => s!"Max buffer size too large: {bytes} bytes (maximum: 64 MB)"
  | emptyText => "Max string length cannot be 0"
  | textOutgrowsBuffer textBytes bufferBytes =>
      s!"Max string length {textBytes} does not fit in a buffer of {bufferBytes} bytes"

/-- What is wrong with the size of the buffer. -/
def bufferProblems (l : Limits) : List Problem :=
  if l.maxBufferBytes.toNat = 0 then [.emptyBuffer]
  else if maxSensibleBytes < l.maxBufferBytes.toNat then [.bufferTooLarge l.maxBufferBytes.toNat]
  else []

/-- What is wrong with the length of texts. -/
def textProblems (l : Limits) : List Problem :=
  if l.maxTextBytes.toNat = 0 then [.emptyText]
  else if l.maxBufferBytes.toNat ≤ l.maxTextBytes.toNat then
    [.textOutgrowsBuffer l.maxTextBytes.toNat l.maxBufferBytes.toNat]
  else []

/-- Everything that is wrong with the limits, the buffer first. -/
def problems (l : Limits) : List Problem := l.bufferProblems ++ l.textProblems

/-- Accepts limits that have no problem; otherwise all problems are told, one a line. -/
def check (l : Limits) : Except WireError Unit :=
  match l.problems with
  | [] => .ok ()
  | ps =>
    .error (.invalidSettings ("Configuration validation failed:\n  - " ++
      "\n  - ".intercalate (ps.map Problem.message)))

@[simp] theorem maxBufferBytes_default : ({} : Limits).maxBufferBytes = 8192 := rfl

@[simp] theorem maxTextBytes_default : ({} : Limits).maxTextBytes = 1024 := rfl

@[simp] theorem capacityBits_default : ({} : Limits).capacityBits = 65536 := rfl

@[simp] theorem problems_default : ({} : Limits).problems = [] := rfl

theorem problems_eq_nil_iff {l : Limits} :
    l.problems = [] ↔ l.bufferProblems = [] ∧ l.textProblems = [] := by
  simp [problems]

end Limits

end WireTree
