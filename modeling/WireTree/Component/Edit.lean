/-
**Changes deep inside a tree.**

A change of a component keeps its variant.  That is built into the type of changes: for every
variant, a change takes contents of that variant to contents of the same variant, and gives an
answer besides.  Such a change can be carried out at the end of a path that leads through fields
of groups and elements of arrays; on the way every group and array that is entered forgets its
size.

Main definitions:

* `WireTree.Edit` — changes that keep the variant;
* `WireTree.Edit.run`, `WireTree.Edit.ofKind` — changes of components, and back;
* `WireTree.Step`, `WireTree.Edit.within` — paths, and a change at the end of one.

Main results:

* `WireTree.Edit.variant_run` — a change keeps the variant;
* `WireTree.Edit.read_eq` — reading typed contents is reading the component.
-/

import WireTree.Component.Array
import WireTree.Component.Codec
import WireTree.Component.Group

set_option relaxedAutoImplicit false
set_option autoImplicit false

namespace WireTree

/-- A change of a component, whatever its variant, with an answer. -/
abbrev Edit (ρ : Type) : Type := (v : Variant) → v.Content → ρ × v.Content

/-- One step into a tree. -/
inductive Step where
  /-- Into the field of this name. -/
  | field (name : String)
  /-- Into the element of this index. -/
  | element (index : Nat)
deriving DecidableEq

namespace Edit

variable {ρ : Type}

/-- Carries a change out on a component. -/
def run (e : Edit ρ) (k : Kind) : ρ × Kind :=
  match e k.variant k.content with
  | (r, content) => (r, Kind.ofContent k.variant content)

/-- A change of components that is known to keep the variant. -/
def ofKind (f : Kind → ρ × Kind) (hf : ∀ k, (f k).2.variant = k.variant) : Edit ρ :=
  fun v content =>
    match h : f (Kind.ofContent v content) with
    | (r, k) =>
      (r, k.contentAt v (by
        have hv := hf (Kind.ofContent v content)
        rwa [h, Kind.variant_ofContent] at hv))

/-- Answers a question about a component and changes nothing. -/
def ask (f : Kind → ρ) : Edit ρ := fun v content => (f (Kind.ofContent v content), content)

/-- Tells the size of a component, which is remembered. -/
def measure : Edit Nat := ofKind Kind.measure Kind.variant_measure

/-- Clears a component. -/
def clear : Edit Unit := ofKind (fun k => ((), k.clear)) Kind.variant_clear

/-- Reads a component. -/
def read (s : BitStream) : Edit (Outcome BitStream Nat) :=
  ofKind
    (fun k =>
      match k.read s with
      | (r, k, s) => ((r, s), k))
    (fun k => Kind.variant_read k s)

/-- A change of the component that a path leads to.  A path does not fit if it takes a name into
anything but a group or an index into anything but an array. -/
def within : List Step → Edit ρ → Edit (Except WireError ρ)
  | [], e => fun v content =>
    match e v content with
    | (r, content) => (.ok r, content)
  | .field name :: path, e => fun v content =>
    match v, content with
    | .group, g =>
      match GroupOf.modifyField g name (run (within path e)) with
      | (.ok r, g) => (r, g)
      | (.error err, g) => (.error err, g)
    | v, content => (.error (Variant.group.mismatch v), content)
  | .element i :: path, e => fun v content =>
    match v, content with
    | .array, a =>
      match ArrayOf.modifyAs a (ArrayOf.prototype a).kind.variant i (within path e _) with
      | (.ok r, a) => (r, a)
      | (.error err, a) => (.error err, a)
    | v, content => (.error (Variant.array.mismatch v), content)

/-- A change keeps the variant. -/
@[simp] theorem variant_run (e : Edit ρ) (k : Kind) : (e.run k).2.variant = k.variant := by
  simp [run]

theorem run_ofContent (e : Edit ρ) (v : Variant) (content : v.Content) :
    e.run (Kind.ofContent v content) = ((e v content).1, Kind.ofContent v (e v content).2) := by
  cases v <;> rfl

/-- A change of components is what it was made of. -/
@[simp] theorem run_ofKind (f : Kind → ρ × Kind) (hf : ∀ k, (f k).2.variant = k.variant)
    (k : Kind) : (ofKind f hf).run k = f k := by
  simp [run, ofKind]

theorem read_ofContent (s : BitStream) (v : Variant) (content : v.Content) :
    (Kind.ofContent v content).read s = ((read s v content).1.1,
      Kind.ofContent v (read s v content).2, (read s v content).1.2) := by
  have hrun := run_ofContent (read s) v content
  rw [read, run_ofKind] at hrun
  rcases hread : (Kind.ofContent v content).read s with ⟨r, kind, s'⟩
  rw [hread, Prod.mk.injEq] at hrun
  obtain ⟨hanswer, hkind⟩ := hrun
  rw [hkind]
  exact congrArg (fun p => (p.1, _, p.2)) hanswer

/-- Reading typed contents answers and leaves what reading the component does. -/
theorem read_eq {s s' : BitStream} {v : Variant} {content content' : v.Content}
    {r : Except WireError Nat}
    (h : (Kind.ofContent v content).read s = (r, Kind.ofContent v content', s')) :
    read s v content = ((r, s'), content') := by
  rw [read_ofContent, Prod.mk.injEq, Prod.mk.injEq] at h
  obtain ⟨hresult, hkind, hstream⟩ := h
  have hcontent := congrArg (Kind.downcast · v) hkind
  simp only [Kind.downcast_ofContent, Except.ok.injEq] at hcontent
  exact Prod.ext (Prod.ext hresult hstream) hcontent

end Edit

end WireTree
