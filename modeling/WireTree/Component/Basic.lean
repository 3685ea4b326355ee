/-
**Trees of components.**

A component is a leaf, an array or a group, and may have a name.  An array is a list of components
of one variant, all begun as copies of a prototype.  A group is a list of required fields and a
list of optional ones, each optional field with a presence mark.  The name of a component serves
to find it in its group and is never written.

Arrays and groups are defined over an arbitrary type of contents first, so that what does not look
into the contents can be said and proved without the recursion; `Kind` then ties the knot.

Arrays and groups remember their size once it has been computed; whoever changes anything in one
has to forget it, by `ArrayOf.forget` or `GroupOf.forget`.

Main definitions:

* `WireTree.Variant` — the sixteen variants and their labels;
* `WireTree.Named`, `WireTree.ArrayOf`, `WireTree.GroupOf`, `WireTree.Slot` — contents with a
  name, arrays and groups of such, and the place of a field in its group;
* `WireTree.Kind`, `WireTree.Component` — component trees without and with a name;
* `WireTree.Variant.Content` — what a component of a variant holds;
  `WireTree.Kind.content` and `WireTree.Kind.ofContent` go back and forth.

Main results:

* `WireTree.Kind.induction` — the induction principle for component trees.
-/

import WireTree.Scalar

set_option relaxedAutoImplicit false
set_option autoImplicit false

namespace WireTree

/-! ### Variants -/

/-- The variants of component. -/
inductive Variant where
  | bool | u8 | s8 | u16 | s16 | u32 | s32 | bounded | float | text | vec2 | vec3 | bits | digest
  | array | group
deriving DecidableEq

namespace Variant

/-- All variants. -/
def all : List Variant :=
  [bool, u8, s8, u16, s16, u32, s32, bounded, float, text, vec2, vec3, bits, digest, array, group]

/-- The name of a variant in diagnostics. -/
def label : Variant → String
  | bool => "bool"
  | u8 => "u8"
  | s8 => "s8"
  | u16 => "u16"
  | s16 => "s16"
  | u32 => "u32"
  | s32 => "s32"
  | bounded => "range"
  | float => "float"
  | text => "string"
  | vec2 => "v2fixed"
  | vec3 => "v3fixed"
  | bits => "bitfield"
  | digest => "digest"
  | array => "array"
  | group => "group"

/-- The variant of a given name. -/
def ofLabel? (label : String) : Option Variant := all.find? fun v => v.label == label

/-- The failure of taking a component of one variant for another. -/
def mismatch (expected found : Variant) : WireError :=
  .variantMismatch expected.label found.label

end Variant

/-- The variant of a leaf. -/
def Scalar.variant : Scalar → Variant
  | bool _ => .bool
  | u8 _ => .u8
  | s8 _ => .s8
  | u16 _ => .u16
  | s16 _ => .s16
  | u32 _ => .u32
  | s32 _ => .s32
  | bounded _ => .bounded
  | float _ => .float
  | text _ => .text
  | vec2 _ => .vec2
  | vec3 _ => .vec3
  | bits _ => .bits
  | digest _ => .digest

/-! ### Arrays and groups of arbitrary contents -/

/-- Contents that may have a name. -/
structure Named (α : Type) where
  /-- The name, if there is one. -/
  name : Option String
  /-- The contents. -/
  kind : α

/-- The same name with other contents. -/
def Named.withKind {α : Type} (c : Named α) (kind : α) : Named α := { c with kind }

/-- The same contents with a name. -/
def Named.withName {α : Type} (c : Named α) (name : String) : Named α := { c with name }

/-- A list of components that all began as copies of a prototype. -/
structure ArrayOf (α : Type) where
  /-- What a new element is a copy of. -/
  prototype : Named α
  /-- The fewest elements that can be written. -/
  minCount : Nat
  /-- The most elements. -/
  maxCount : Nat
  /-- The number of elements as it is written. -/
  countField : BoundedInt
  /-- The elements, in order. -/
  elements : List (Named α)
  /-- The size, if it is remembered. -/
  cachedSize : Option Nat

/-- The place of a field in its group. -/
inductive Slot where
  /-- The required field of this index. -/
  | required (index : Nat)
  /-- The optional field of this index. -/
  | optional (index : Nat)
deriving DecidableEq

/-- Required and optional fields, in the order in which they were added. -/
structure GroupOf (α : Type) where
  /-- The required fields. -/
  required : List (Named α)
  /-- The optional fields. -/
  optional : List (Named α)
  /-- One mark for every optional field: whether it is present. -/
  indicator : BitSet
  /-- The places of the fields that have a name. -/
  slots : List (String × Slot)
  /-- The size, if it is remembered. -/
  cachedSize : Option Nat

namespace ArrayOf

variable {α : Type}

/-- The array without a remembered size. -/
def forget (a : ArrayOf α) : ArrayOf α := { a with cachedSize := none }

/-- The number of elements. -/
def len (a : ArrayOf α) : Nat := a.elements.length

/-- Whether there are no elements. -/
def isEmpty (a : ArrayOf α) : Bool := a.elements.isEmpty

/-- The element of an index, if there is one. -/
def get? (a : ArrayOf α) (i : Nat) : Option (Named α) := a.elements[i]?

/-- Gives the array other elements; the count field follows, and the size is forgotten. -/
def withElements (a : ArrayOf α) (elements : List (Named α)) : ArrayOf α :=
  { a with
    elements
    countField := a.countField.set (Int32.ofNat elements.length)
    cachedSize := none }

/-- The failure of a number of elements out of bounds. -/
def countOutOfRange (a : ArrayOf α) (count : Nat) : WireError :=
  .countOutOfRange count a.minCount a.maxCount

/-- Whether the array may be written with `count` elements. -/
def admits (a : ArrayOf α) (count : Nat) : Bool :=
  decide (a.minCount ≤ count) && decide (count ≤ a.maxCount)

end ArrayOf

namespace GroupOf

variable {α : Type}

/-- The group without fields. -/
def empty : GroupOf α := ⟨[], [], .replicate 0, [], none⟩

/-- The group without a remembered size. -/
def forget (g : GroupOf α) : GroupOf α := { g with cachedSize := none }

/-- The number of fields, required and optional. -/
def len (g : GroupOf α) : Nat := g.required.length + g.optional.length

/-- Whether there are no fields. -/
def isEmpty (g : GroupOf α) : Bool := g.len == 0

/-- The optional fields that are marked present, in order. -/
def present (g : GroupOf α) : List (Named α) :=
  ((g.optional.zip g.indicator.toList).filter Prod.snd).map Prod.fst

end GroupOf

/-! ### Component trees -/

/-- What a component holds. -/
inductive Kind where
  /-- A leaf value. -/
  | scalar (s : Scalar)
  /-- A list of components of one variant. -/
  | array (a : ArrayOf Kind)
  /-- Required and optional fields. -/
  | group (g : GroupOf Kind)

/-- A component: what it holds and, maybe, a name. -/
abbrev Component : Type := Named Kind

/-- An array of components. -/
abbrev ArrayField : Type := ArrayOf Kind

/-- A group of components. -/
abbrev Group : Type := GroupOf Kind

namespace Kind

/-- The variant of a component. -/
def variant : Kind → Variant
  | scalar s => s.variant
  | array _ => .array
  | group _ => .group

/-- What holds of every leaf, of an array if it holds of its prototype and its elements, and of a
group if it holds of its fields, holds of every component. -/
theorem induction {P : Kind → Prop} (scalar : ∀ s, P (.scalar s))
    (array : ∀ a : ArrayOf Kind, P a.prototype.kind → (∀ c ∈ a.elements, P c.kind) → P (.array a))
    (group : ∀ g : GroupOf Kind, (∀ c ∈ g.required, P c.kind) → (∀ c ∈ g.optional, P c.kind) →
      P (.group g)) (k : Kind) : P k :=
  Kind.rec (motive_1 := P)
    (motive_2 := fun a => P a.prototype.kind ∧ ∀ c ∈ a.elements, P c.kind)
    (motive_3 := fun g => (∀ c ∈ g.required, P c.kind) ∧ ∀ c ∈ g.optional, P c.kind)
    (motive_4 := fun c => P c.kind)
    (motive_5 := fun cs => ∀ c ∈ cs, P c.kind)
    scalar
    (fun a h => array a h.1 h.2)
    (fun g h => group g h.1 h.2)
    (fun _ _ _ _ _ _ h h' => ⟨h, h'⟩)
    (fun _ _ _ _ _ h h' => ⟨h, h'⟩)
    (fun _ _ h => h)
    (fun _ h => nomatch h)
    (fun _ _ h h' => List.forall_mem_cons.2 ⟨h, h'⟩)
    k

end Kind

/-! ### Typed contents -/

/-- What a component of a variant holds. -/
abbrev Variant.Content : Variant → Type
  | .bool => Bool
  | .u8 => UInt8
  | .s8 => Int8
  | .u16 => UInt16
  | .s16 => Int16
  | .u32 => UInt32
  | .s32 => Int32
  | .bounded => BoundedInt
  | .float => Binary32
  | .text => String
  | .vec2 => Vec2
  | .vec3 => Vec3
  | .bits => BitSet
  | .digest => Digest
  | .array => ArrayField
  | .group => Group

namespace Kind

/-- What a component holds, typed by its variant. -/
def content : (k : Kind) → k.variant.Content
  | scalar (.bool b) => b
  | scalar (.u8 n) => n
  | scalar (.s8 n) => n
  | scalar (.u16 n) => n
  | scalar (.s16 n) => n
  | scalar (.u32 n) => n
  | scalar (.s32 n) => n
  | scalar (.bounded r) => r
  | scalar (.float x) => x
  | scalar (.text t) => t
  | scalar (.vec2 v) => v
  | scalar (.vec3 v) => v
  | scalar (.bits b) => b
  | scalar (.digest d) => d
  | array a => a
  | group g => g

/-- The component of a variant with the given contents. -/
def ofContent : (v : Variant) → v.Content → Kind
  | .bool, b => scalar (.bool b)
  | .u8, n => scalar (.u8 n)
  | .s8, n => scalar (.s8 n)
  | .u16, n => scalar (.u16 n)
  | .s16, n => scalar (.s16 n)
  | .u32, n => scalar (.u32 n)
  | .s32, n => scalar (.s32 n)
  | .bounded, r => scalar (.bounded r)
  | .float, x => scalar (.float x)
  | .text, t => scalar (.text t)
  | .vec2, v => scalar (.vec2 v)
  | .vec3, v => scalar (.vec3 v)
  | .bits, b => scalar (.bits b)
  | .digest, d => scalar (.digest d)
  | .array, a => array a
  | .group, g => group g

@[simp] theorem variant_ofContent (v : Variant) (c : v.Content) : (ofContent v c).variant = v := by
  cases v <;> rfl

@[simp] theorem ofContent_content (k : Kind) : ofContent k.variant k.content = k := by
  cases k with
  | scalar s => cases s <;> rfl
  | array a => rfl
  | group g => rfl

/-- The contents of a component that is known to be of a variant. -/
def contentAt (k : Kind) (v : Variant) (h : k.variant = v) : v.Content := h ▸ k.content

@[simp] theorem ofContent_contentAt (k : Kind) (v : Variant) (h : k.variant = v) :
    ofContent v (k.contentAt v h) = k := by
  subst h
  exact ofContent_content k

/-- The contents of a component as those of a given variant; fails for any other. -/
def downcast (k : Kind) (v : Variant) : Except WireError v.Content :=
  if h : k.variant = v then .ok (k.contentAt v h) else .error (v.mismatch k.variant)

/-- Whether two components are of the same variant. -/
def sameVariant (k k' : Kind) : Bool := k.variant == k'.variant

@[simp] theorem downcast_ofContent (v : Variant) (c : v.Content) :
    (ofContent v c).downcast v = .ok c := by
  cases v <;> rfl

/-- Taking a component for its own variant gives its contents. -/
theorem downcast_eq_ok_iff {k : Kind} {v : Variant} {c : v.Content} :
    k.downcast v = .ok c ↔ k = ofContent v c := by
  constructor
  · intro h
    simp only [downcast] at h
    split at h
    · rename_i hv
      simp only [Except.ok.injEq] at h
      rw [← h, ofContent_contentAt]
    · simp at h
  · rintro rfl
    exact downcast_ofContent v c

/-- Taking a component for another variant than its own fails. -/
theorem downcast_of_ne {k : Kind} {v : Variant} (h : k.variant ≠ v) :
    k.downcast v = .error (v.mismatch k.variant) := by simp [downcast, h]

end Kind

end WireTree
