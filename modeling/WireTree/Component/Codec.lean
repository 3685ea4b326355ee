/-
**Writing and reading component trees.**

A tree is written depth first.  An array writes the number of its elements, as a number between
its bounds, and then the elements.  A group writes its required fields, then one mark for every
optional field, then the optional fields that are marked present.  Nothing else is written: no
names, no lengths, no fill.

Reading takes the same decisions from the bits, whatever the source of them.  A number of elements
out of bounds ends it.  An array is read as a whole or not at all: its new elements are copies of
the prototype, and the old ones are kept if one of them cannot be read.  A group that cannot be read
to its end is left half read, and its reader discards it.

Main definitions:

* `WireTree.Kind.write`, `WireTree.Kind.read` — the two directions;
* `WireTree.Kind.clear` — the canonical empty tree of the same shape.

Main results:

* `WireTree.Kind.variant_read`, `WireTree.Kind.variant_clear` — the variant stays.
-/

import WireTree.Component.Size

set_option relaxedAutoImplicit false
set_option autoImplicit false

namespace WireTree

/-! ### The number of elements -/

namespace ArrayOf

variable {α β : Type}

/-- Takes a number of elements; one that is negative as a signed integer counts as zero. -/
def readCount [BitSource β] (a : ArrayOf α) (s : β) : Outcome β Nat :=
  match BitSource.readBits s a.countField.width with
  | (.ok word, s) => (.ok (a.countField.ofOffset word).value.toInt.toNat, s)
  | (.error e, s) => (.error e, s)

/-- Takes `count` components, beginning each time with the same copy.  The number of bits taken is
added to `n`, and `done` holds the components read, the last first. -/
def readCopies (readCopy : β → Outcome (α × β) Nat) :
    (count n : Nat) → (done : List α) → β → Outcome β (Nat × List α)
  | 0, n, done, s => (.ok (n, done.reverse), s)
  | count + 1, n, done, s =>
    match readCopy s with
    | (.error e, _, s) => (.error e, s)
    | (.ok m, c, s) => readCopies readCopy count (n + m) (c :: done) s

end ArrayOf

namespace Kind

/-! ### Writing -/

mutual

/-- Appends a tree and tells how many bits it took. -/
def write : Kind → BitStream → Outcome BitStream Nat
  | scalar v, s => v.write s
  | array a, s =>
    if a.admits a.len then
      match s.writeBits a.countField.offset a.countField.width with
      | (.error e, s) => (.error e, s)
      | (.ok _, s) => writeAll a.elements a.countField.width s
    else (.error (a.countOutOfRange a.len), s)
  | group g, s =>
    match writeAll g.required 0 s with
    | (.error e, s) => (.error e, s)
    | (.ok n, s) =>
      match g.indicator.write s with
      | (.error e, s) => (.error e, s)
      | (.ok m, s) => writePresent g.indicator.toList g.optional (n + m) s
termination_by structural k => k

/-- Appends components one after the other and adds the number of bits they took to `n`. -/
def writeAll : List Component → (n : Nat) → BitStream → Outcome BitStream Nat
  | [], n, s => (.ok n, s)
  | c :: cs, n, s =>
    match write c.kind s with
    | (.error e, s) => (.error e, s)
    | (.ok m, s) => writeAll cs (n + m) s
termination_by structural cs => cs

/-- Appends the components marked present and adds the number of bits they took to `n`. -/
def writePresent : List Bool → List Component → (n : Nat) → BitStream → Outcome BitStream Nat
  | present :: marks, c :: cs, n, s =>
    if present then
      match write c.kind s with
      | (.error e, s) => (.error e, s)
      | (.ok m, s) => writePresent marks cs (n + m) s
    else writePresent marks cs n s
  | _, [], n, s => (.ok n, s)
  | [], _ :: _, n, s => (.ok n, s)
termination_by structural _ cs => cs

end

/-! ### Reading -/

section Read

variable {β : Type} [BitSource β]

mutual

/-- Takes a tree of the same shape and tells how many bits it took. -/
def read : Kind → β → Outcome (Kind × β) Nat
  | scalar v, s =>
    match v.read s with
    | (r, v, s) => (r, scalar v, s)
  | array a, s =>
    match a.readCount s with
    | (.error e, s) => (.error e, array a, s)
    | (.ok count, s) =>
      if a.admits count then
        let readCopy (s : β) : Outcome (Component × β) Nat :=
          match read a.prototype.kind s with
          | (r, kind, s) => (r, a.prototype.withKind kind, s)
        match ArrayOf.readCopies readCopy count a.countField.width [] s with
        | (.error e, s) => (.error e, array a, s)
        | (.ok (n, elements), s) => (.ok n, array (a.withElements elements), s)
      else (.error (a.countOutOfRange count), array a, s)
  | group g, s =>
    let g := g.forget
    match readAll g.required s with
    | (.error e, required, s) => (.error e, group { g with required }, s)
    | (.ok n, required, s) =>
      match g.indicator.read s with
      | (.error e, indicator, s) => (.error e, group { g with required, indicator }, s)
      | (.ok m, indicator, s) =>
        match readPresent indicator.toList g.optional s with
        | (.error e, optional, s) =>
          (.error e, group { g with required, indicator, optional }, s)
        | (.ok l, optional, s) =>
          (.ok (n + m + l), group { g with required, indicator, optional }, s)
termination_by structural k => k

/-- Takes components one after the other; those after a failure stay as they were. -/
def readAll : List Component → β → Outcome (List Component × β) Nat
  | [], s => (.ok 0, [], s)
  | c :: cs, s =>
    match read c.kind s with
    | (.error e, kind, s) => (.error e, c.withKind kind :: cs, s)
    | (.ok n, kind, s) =>
      match readAll cs s with
      | (.error e, cs, s) => (.error e, c.withKind kind :: cs, s)
      | (.ok m, cs, s) => (.ok (n + m), c.withKind kind :: cs, s)
termination_by structural cs => cs

/-- Takes the components marked present; the others, and those after a failure, stay as they
were. -/
def readPresent : List Bool → List Component → β → Outcome (List Component × β) Nat
  | present :: marks, c :: cs, s =>
    if present then
      match read c.kind s with
      | (.error e, kind, s) => (.error e, c.withKind kind :: cs, s)
      | (.ok n, kind, s) =>
        match readPresent marks cs s with
        | (.error e, cs, s) => (.error e, c.withKind kind :: cs, s)
        | (.ok m, cs, s) => (.ok (n + m), c.withKind kind :: cs, s)
    else
      match readPresent marks cs s with
      | (r, cs, s) => (r, c :: cs, s)
  | _, [], s => (.ok 0, [], s)
  | [], c :: cs, s => (.ok 0, c :: cs, s)
termination_by structural _ cs => cs

end

end Read

/-! ### Clearing -/

mutual

/-- The canonical empty tree of the same shape: leaves are cleared, arrays are emptied, all fields
of a group are cleared and its optional fields are absent. -/
def clear : Kind → Kind
  | scalar v => scalar v.clear
  | array a => array (a.withElements [])
  | group g =>
    group { g with
      required := clearAll g.required
      optional := clearAll g.optional
      indicator := g.indicator.clear
      cachedSize := none }
termination_by structural k => k

/-- Clears components and keeps their names. -/
def clearAll : List Component → List Component
  | [] => []
  | c :: cs => c.withKind (clear c.kind) :: clearAll cs
termination_by structural cs => cs

end

theorem clearAll_eq (cs : List Component) :
    clearAll cs = cs.map fun c => c.withKind c.kind.clear := by
  induction cs with
  | nil => rfl
  | cons c cs ih => simp [clearAll, ih]

/-! ### The variant stays -/

end Kind

namespace Scalar

@[simp] theorem variant_clear (v : Scalar) : v.clear.variant = v.variant := by
  cases v <;> rfl

@[simp] theorem variant_fill (v : Scalar) (words : List UInt32) :
    (v.fill words).variant = v.variant := by
  unfold fill
  split <;> simp only [variant]

@[simp] theorem variant_read {β : Type} [BitSource β] (v : Scalar) (s : β) :
    (v.read s).2.1.variant = v.variant := by
  unfold read
  split
  · split <;> rfl
  · split <;> simp

end Scalar

namespace Kind

@[simp] theorem variant_clear (k : Kind) : k.clear.variant = k.variant := by
  cases k with
  | scalar v => simp [clear, variant]
  | array a => simp [clear, variant]
  | group g => simp [clear, variant]

@[simp] theorem variant_read {β : Type} [BitSource β] (k : Kind) (s : β) :
    (k.read s).2.1.variant = k.variant := by
  cases k with
  | scalar v => simp [read, variant]
  | array a =>
    rw [read]
    split
    · rfl
    · split
      · simp only
        split <;> rfl
      · rfl
  | group g =>
    rw [read]
    split
    · rfl
    · split
      · rfl
      · split <;> rfl

end Kind

end WireTree
