/-
**Sets of bits of a fixed length.**

Flags and presence marks are kept 32 to a word, bit `i` in word `i / 32` at place `i % 32`, and the
places of the last word that belong to no bit are zero.  The owner may change the length: bits
past a new end are lost, new bits are clear.  On the wire the words are written in order, the last
one shortened to the bits it holds, so inside each word the highest bit comes first.

Main definitions:

* `WireTree.BitSet` — the words and the number of bits;
* `WireTree.BitSet.get`, `WireTree.BitSet.set`, `WireTree.BitSet.resize`,
  `WireTree.BitSet.remove` — access to single bits, and the two ways to change the length;
* `WireTree.BitSet.read`, `WireTree.BitSet.write` — the two directions of the wire;
* `WireTree.BitSet.toList` — the bits, in order, which is the view in which the operations are
  described.

Main results:

* `WireTree.BitSet.set_eq_error_iff`, `WireTree.BitSet.remove_eq_error_iff` — an index fails
  exactly when it is past the end.
-/

import WireTree.BitStream.Cell

set_option relaxedAutoImplicit false
set_option autoImplicit false

namespace WireTree

/-- A set of `len` bits, packed 32 to a word. -/
structure BitSet where
  /-- The words. -/
  words : Array UInt32
  /-- The number of bits. -/
  len : Nat
deriving DecidableEq

namespace BitSet

/-- The number of words that hold `len` bits. -/
def wordCount (len : Nat) : Nat := (len + 31) / 32

/-- The word in which only the place of bit `i` is set. -/
def place (i : Nat) : UInt32 := 1 <<< UInt32.ofNat (i % 32)

/-- `len` clear bits. -/
def replicate (len : Nat) : BitSet := ⟨Array.replicate (wordCount len) 0, len⟩

/-- Whether there is no bit at all. -/
def isEmpty (b : BitSet) : Bool := b.len == 0

/-- Bit `i`; there are no set bits past the end. -/
def get (b : BitSet) (i : Nat) : Bool :=
  decide (i < b.len) && (b.words.getD (i / 32) 0 &&& place i) != 0

/-- Gives the place of bit `i` the value `value`. -/
def put (b : BitSet) (i : Nat) (value : Bool) : BitSet :=
  { b with
    words := b.words.modify (i / 32) fun word =>
      if value then word ||| place i else word &&& ~~~place i }

/-- Gives bit `i` the value `value`; there must be such a bit. -/
def set (b : BitSet) (i : Nat) (value : Bool) : Except WireError BitSet :=
  if i < b.len then .ok (b.put i value) else .error (.bitIndex i b.len)

/-- Clears every bit and keeps the length. -/
def clear (b : BitSet) : BitSet := { b with words := b.words.map fun _ => 0 }

/-- The places of the last word that hold bits, if `len` bits leave some of them free. -/
def tailMask (len : Nat) : UInt32 :=
  if len % 32 = 0 then ~~~0 else (1 <<< UInt32.ofNat (len % 32)) - 1

/-- Changes the length: bits before the new end keep their values, new bits are clear. -/
def resize (b : BitSet) (len : Nat) : BitSet :=
  let count := wordCount len
  let words := b.words.take count ++ Array.replicate (count - b.words.size) 0
  ⟨words.modify (count - 1) (· &&& tailMask len), len⟩

/-- Moves the bits after bit `i` down by one and gives up the last. -/
def shiftDown (b : BitSet) (i : Nat) : BitSet :=
  ((List.range' i (b.len - 1 - i)).foldl (fun b j => b.put j (b.get (j + 1))) b).resize (b.len - 1)

/-- Takes bit `i` out, moving the later bits down by one. -/
def remove (b : BitSet) (i : Nat) : Except WireError (Bool × BitSet) :=
  if i < b.len then .ok (b.get i, b.shiftDown i) else .error (.bitIndex i b.len)

/-- The bits, in order. -/
def toList (b : BitSet) : List Bool := (List.range b.len).map b.get

/-- The set with the given bits. -/
def ofList (bits : List Bool) : BitSet :=
  bits.zipIdx.foldl (fun b p => if p.1 then b.put p.2 true else b) (replicate bits.length)

/-- The number of set bits. -/
def count (b : BitSet) : Nat :=
  b.words.foldl (fun n word => n + (Bits.ofNat 32 word.toNat).count true) 0

/-! ### The wire -/

/-- The number of bits that word `i` holds. -/
def wordWidth (b : BitSet) (i : Nat) : Nat := min 32 (b.len - 32 * i)

/-- The numbers of bits that the words hold, in order. -/
def widths (b : BitSet) : List Nat := (List.range b.words.size).map b.wordWidth

/-- The words with the numbers of bits they hold. -/
def cells (b : BitSet) : List Cell := List.zipWith Cell.mk b.words.toList b.widths

/-- The same length with other words. -/
def withWords (b : BitSet) (words : List UInt32) : BitSet := { b with words := words.toArray }

/-- Appends all bits and tells how many they are. -/
def write (b : BitSet) (s : BitStream) : Outcome BitStream Nat :=
  match s.writeCells b.cells with
  | (.ok _, s) => (.ok b.len, s)
  | (.error e, s) => (.error e, s)

/-- Takes as many bits as the set has and tells how many they are; on failure the set keeps its
bits. -/
def read {β : Type} [BitSource β] (b : BitSet) (s : β) : Outcome (BitSet × β) Nat :=
  match BitSource.readWords s b.widths with
  | (.ok words, s) => (.ok b.len, b.withWords words, s)
  | (.error e, s) => (.error e, b, s)

/-! ### Lengths and failures -/

@[simp] theorem len_replicate (len : Nat) : (replicate len).len = len := rfl

@[simp] theorem len_put (b : BitSet) (i : Nat) (value : Bool) : (b.put i value).len = b.len := rfl

@[simp] theorem size_words_put (b : BitSet) (i : Nat) (value : Bool) :
    (b.put i value).words.size = b.words.size := by simp [put]

@[simp] theorem len_clear (b : BitSet) : b.clear.len = b.len := rfl

@[simp] theorem len_resize (b : BitSet) (len : Nat) : (b.resize len).len = len := rfl

@[simp] theorem size_words_resize (b : BitSet) (len : Nat) :
    (b.resize len).words.size = wordCount len := by
  simp [resize]; omega

@[simp] theorem length_toList (b : BitSet) : b.toList.length = b.len := by simp [toList]

@[simp] theorem len_withWords (b : BitSet) (words : List UInt32) :
    (b.withWords words).len = b.len := rfl

theorem get_of_le {b : BitSet} {i : Nat} (h : b.len ≤ i) : b.get i = false := by
  simp [get, Nat.not_lt.2 h]

theorem set_eq_error_iff {b : BitSet} {i : Nat} {value : Bool} {e : WireError} :
    b.set i value = .error e ↔ b.len ≤ i ∧ e = .bitIndex i b.len := by
  simp only [set]
  split
  · simp; omega
  · simp only [Except.error.injEq, eq_comm (b := e)]
    constructor
    · exact fun h => ⟨by omega, h⟩
    · exact fun h => h.2

theorem remove_eq_error_iff {b : BitSet} {i : Nat} {e : WireError} :
    b.remove i = .error e ↔ b.len ≤ i ∧ e = .bitIndex i b.len := by
  simp only [remove]
  split
  · simp; omega
  · simp only [Except.error.injEq, eq_comm (b := e)]
    constructor
    · exact fun h => ⟨by omega, h⟩
    · exact fun h => h.2

end BitSet

end WireTree
