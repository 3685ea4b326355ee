/-
**Elements of an array.**

An array holds elements of the variant of its prototype, and no more than its upper bound; fewer
than the lower bound are a failure only when the array is written.  Elements are handed out with
their variant in the type, so a change cannot replace one by a component of another variant.

Main definitions:

* `WireTree.ArrayOf.make`, `WireTree.ArrayOf.unbounded` — arrays without elements;
* `WireTree.ArrayOf.pushComponent`, `WireTree.ArrayOf.push`, `WireTree.ArrayOf.pop` — changes at
  the end;
* `WireTree.ArrayOf.modifyAs`, `WireTree.ArrayOf.modifyAll` — changes of one element, and of all
  in turn.

Main results:

* `WireTree.ArrayOf.pushComponent_eq_ok_iff` — when an element can be appended.
-/

import WireTree.Component.Basic

set_option relaxedAutoImplicit false
set_option autoImplicit false

namespace WireTree.ArrayOf

variable {ρ σ : Type}

/-! ### Arrays without elements -/

/-- The largest upper bound: a number of elements is a 32-bit signed integer. -/
def maxMaxCount : Nat := 2 ^ 31 - 1

/-- An array of copies of a prototype, with bounds on their number. -/
def make (prototype : Component) (minCount maxCount : Nat) : Except WireError ArrayField :=
  if maxCount < minCount ∨ maxMaxCount < maxCount then .error (.invertedBounds minCount maxCount)
  else
    match BoundedInt.make 0 (Int32.ofNat minCount) (Int32.ofNat maxCount) with
    | .error e => .error e
    | .ok countField => .ok ⟨prototype, minCount, maxCount, countField, [], none⟩

/-- An array of copies of a prototype, with the default bounds on their number. -/
def unbounded (prototype : Component) : ArrayField :=
  ⟨prototype, 0, defaultArrayMaxCount, ⟨0, 0, 65535, none, by decide⟩, [], none⟩

/-! ### The end of the array -/

/-- Appends a component, which must be of the variant of the prototype. -/
def pushComponent (a : ArrayField) (c : Component) : Except WireError ArrayField :=
  if c.kind.variant ≠ a.prototype.kind.variant then
    .error (a.prototype.kind.variant.mismatch c.kind.variant)
  else if a.maxCount ≤ a.len then .error (a.countOutOfRange (a.len + 1))
  else .ok (a.withElements (a.elements ++ [c]))

/-- Appends a copy of the prototype, which must be of the given variant, and changes it. -/
def push (a : ArrayField) (v : Variant) (f : v.Content → ρ × v.Content) : Outcome ArrayField ρ :=
  match a.prototype.kind.downcast v with
  | .error e => (.error e, a)
  | .ok content =>
    match f content with
    | (r, content) =>
      match a.pushComponent (a.prototype.withKind (Kind.ofContent v content)) with
      | .error e => (.error e, a)
      | .ok a => (.ok r, a)

/-- Takes the last element off, if there is one. -/
def pop (a : ArrayField) : Option Component × ArrayField :=
  (a.elements.getLast?, a.withElements a.elements.dropLast)

/-! ### Elements in place -/

/-- Changes the element of an index, as contents of a variant.  The index is checked before the
variant. -/
def modifyAs (a : ArrayField) (v : Variant) (i : Nat) (f : v.Content → ρ × v.Content) :
    Outcome ArrayField ρ :=
  match a.elements[i]? with
  | none => (.error (.elementIndex i a.len), a)
  | some c =>
    match c.kind.downcast v with
    | .error e => (.error e, a.forget)
    | .ok content =>
      match f content with
      | (r, content) =>
        (.ok r, { a with
          elements := a.elements.set i (c.withKind (Kind.ofContent v content))
          cachedSize := none })

/-- Changes components one after the other, carrying a state along; those of another variant are
passed over. -/
def modifyEach (v : Variant) (f : σ → v.Content → σ × v.Content) :
    σ → List Component → σ × List Component
  | s, [] => (s, [])
  | s, c :: cs =>
    match c.kind.downcast v with
    | .error _ =>
      match modifyEach v f s cs with
      | (s, cs) => (s, c :: cs)
    | .ok content =>
      match f s content with
      | (s, content) =>
        match modifyEach v f s cs with
        | (s, cs) => (s, c.withKind (Kind.ofContent v content) :: cs)

/-- Changes all elements one after the other, as contents of a variant, carrying a state along. -/
def modifyAll (a : ArrayField) (v : Variant) (f : σ → v.Content → σ × v.Content) (s : σ) :
    Outcome ArrayField σ :=
  match a.prototype.kind.downcast v with
  | .error e => (.error e, a)
  | .ok _ =>
    match modifyEach v f s a.elements with
    | (s, elements) => (.ok s, { a with elements, cachedSize := none })

/-! ### When an element can be appended -/

/-- A component is appended exactly when it is of the variant of the prototype and there is room
for it. -/
theorem pushComponent_eq_ok_iff {a a' : ArrayField} {c : Component} :
    a.pushComponent c = .ok a' ↔
      c.kind.variant = a.prototype.kind.variant ∧ a.len < a.maxCount ∧
        a' = a.withElements (a.elements ++ [c]) := by
  simp only [pushComponent, ne_eq, ite_not]
  split
  · split
    · simp; omega
    · simp only [Except.ok.injEq, eq_comm (b := a')]
      simp_all
  · simp_all

theorem length_modifyEach (v : Variant) (f : σ → v.Content → σ × v.Content) (s : σ)
    (cs : List Component) : (modifyEach v f s cs).2.length = cs.length := by
  induction cs generalizing s with
  | nil => rfl
  | cons c cs ih =>
    rw [modifyEach]
    split <;> simp [ih]

end WireTree.ArrayOf
