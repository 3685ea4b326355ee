/-
**Layouts.**

What a reader has to know before it can read is the layout of a tree: its variants, the bounds of
its integers and arrays, the lengths of its bit sets, the layouts of the prototypes, and the
required and optional fields of its groups in their order.  Values, presence marks, the elements
of an array, names and everything remembered are no part of it.

Main definitions:

* `WireTree.Layout` — layouts;
* `WireTree.Scalar.layout`, `WireTree.Kind.layout` — the layout of a leaf and of a tree.

Main results:

* `WireTree.Kind.layoutAll_eq` — the layouts of a list of fields.
-/

import WireTree.Component.Basic

set_option relaxedAutoImplicit false
set_option autoImplicit false

namespace WireTree

/-- What is known of a tree before it is read. -/
inductive Layout where
  /-- A leaf of a variant that has nothing more to tell. -/
  | plain (variant : Variant)
  /-- An integer between two bounds. -/
  | bounded (lower upper : Int32)
  /-- A set of bits. -/
  | bits (len : Nat)
  /-- An array with bounds on the number of its elements. -/
  | array (minCount maxCount : Nat) (prototype : Layout)
  /-- A group of required and optional fields. -/
  | group (required optional : List Layout)

/-- The layout of a leaf. -/
def Scalar.layout : Scalar → Layout
  | bounded r => .bounded r.lower r.upper
  | bits b => .bits b.len
  | v => .plain v.variant

namespace Kind

mutual

/-- The layout of a tree. -/
def layout : Kind → Layout
  | scalar v => v.layout
  | array a => .array a.minCount a.maxCount (layout a.prototype.kind)
  | group g => .group (layoutAll g.required) (layoutAll g.optional)
termination_by structural k => k

/-- The layouts of a list of components. -/
def layoutAll : List Component → List Layout
  | [] => []
  | c :: cs => layout c.kind :: layoutAll cs
termination_by structural cs => cs

end

theorem layoutAll_eq (cs : List Component) : layoutAll cs = cs.map fun c => c.kind.layout := by
  induction cs with
  | nil => rfl
  | cons c cs ih => simp [layoutAll, ih]

/-- A tree of the layout of a leaf is a leaf. -/
theorem eq_scalar_of_layout_eq {k : Kind} {v : Scalar} (h : k.layout = v.layout) :
    ∃ u, k = scalar u ∧ u.layout = v.layout := by
  cases k with
  | scalar u => exact ⟨u, rfl, h⟩
  | array a => cases v <;> simp [layout, Scalar.layout] at h
  | group g => cases v <;> simp [layout, Scalar.layout] at h

theorem eq_array_of_layout_eq {k : Kind} {a : ArrayField} (h : k.layout = (array a).layout) :
    ∃ b : ArrayField, k = array b ∧ b.minCount = a.minCount ∧ b.maxCount = a.maxCount ∧
      b.prototype.kind.layout = a.prototype.kind.layout := by
  cases k with
  | scalar u => cases u <;> simp [layout, Scalar.layout] at h
  | array b =>
      simp only [layout, Layout.array.injEq] at h
      exact ⟨b, rfl, h⟩
  | group g => simp [layout] at h

theorem eq_group_of_layout_eq {k : Kind} {g : Group} (h : k.layout = (group g).layout) :
    ∃ f : Group, k = group f ∧ layoutAll f.required = layoutAll g.required ∧
      layoutAll f.optional = layoutAll g.optional := by
  cases k with
  | scalar u => cases u <;> simp [layout, Scalar.layout] at h
  | array a => simp [layout] at h
  | group f =>
      simp only [layout, Layout.group.injEq] at h
      exact ⟨f, rfl, h⟩

end Kind

end WireTree
