/-
**The part of a tree that is written.**

A node is written if it is reached from the root through elements of arrays, required fields, and
optional fields that are marked present.  Absent fields and prototypes are not.  Whether a tree
can be written, and whether it is read back, depends on the nodes that are written and on no
others.

Main definitions:

* `WireTree.marked` — the members of a list that are marked;
* `WireTree.Kind.Emits` — a node of a tree is written;
* `WireTree.Kind.EmitsOnly` — every node that is written has a property;
* `WireTree.Kind.Sendable` — what has to hold of a node for it to be written.

Main results:

* `WireTree.Kind.emitsOnly_array`, `WireTree.Kind.emitsOnly_group` — the property node by node;
* `WireTree.Kind.writePresent_eq` — the present fields are written like any list of fields.
-/

import WireTree.Component.Codec
import WireTree.Proofs.Scalar

set_option relaxedAutoImplicit false
set_option autoImplicit false

namespace WireTree

/-! ### Marked fields -/

/-- The members of a list that are marked. -/
def marked {α : Type} (marks : List Bool) (cs : List α) : List α :=
  ((cs.zip marks).filter Prod.snd).map Prod.fst

section Marked

variable {α : Type} {marks : List Bool} {c : α} {cs : List α}

@[simp] theorem marked_nil : marked marks ([] : List α) = [] := rfl

@[simp] theorem marked_unmarked : marked [] cs = [] := by simp [marked]

@[simp] theorem marked_cons_true : marked (true :: marks) (c :: cs) = c :: marked marks cs := rfl

@[simp] theorem marked_cons_false : marked (false :: marks) (c :: cs) = marked marks cs := rfl

theorem mem_of_mem_marked (h : c ∈ marked marks cs) : c ∈ cs := by
  rw [marked, List.mem_map] at h
  obtain ⟨⟨c', mark⟩, hmem, rfl⟩ := h
  exact (List.of_mem_zip (List.mem_filter.1 hmem).1).1

end Marked

theorem GroupOf.present_eq {α : Type} (g : GroupOf α) :
    g.present = marked g.indicator.toList g.optional := rfl

theorem GroupOf.mem_optional_of_mem_present {α : Type} {g : GroupOf α} {c : Named α}
    (h : c ∈ g.present) : c ∈ g.optional := mem_of_mem_marked h

namespace Kind

/-! ### Nodes that are written -/

/-- `node` is written when the tree is. -/
inductive Emits : Kind → Kind → Prop
  | root (k : Kind) : Emits k k
  | element {a : ArrayField} {c : Component} {node : Kind} :
      c ∈ a.elements → Emits c.kind node → Emits (.array a) node
  | required {g : Group} {c : Component} {node : Kind} :
      c ∈ g.required → Emits c.kind node → Emits (.group g) node
  | optional {g : Group} {c : Component} {node : Kind} :
      c ∈ g.present → Emits c.kind node → Emits (.group g) node

/-- Every node that is written has the property `P`. -/
def EmitsOnly (P : Kind → Prop) (k : Kind) : Prop := ∀ node, k.Emits node → P node

/-- What has to hold of a node for a stream with this limit on texts to take it. -/
def Sendable (limit : Nat) : Kind → Prop
  | scalar v => v.Sendable limit
  | array a => a.admits a.len = true
  | group _ => True

section EmitsOnly

variable {P Q : Kind → Prop} {k : Kind}

theorem EmitsOnly.root (h : k.EmitsOnly P) : P k := h k (.root k)

theorem EmitsOnly.imp (h : k.EmitsOnly P) (himp : ∀ node, P node → Q node) : k.EmitsOnly Q := by
  intro node hnode
  exact himp node (h node hnode)

@[simp] theorem emitsOnly_scalar {v : Scalar} : EmitsOnly P (scalar v) ↔ P (scalar v) := by
  constructor
  · exact EmitsOnly.root
  · intro h node hnode
    cases hnode with
    | root => exact h

theorem emitsOnly_array {a : ArrayField} : EmitsOnly P (array a) ↔
    P (array a) ∧ ∀ c ∈ a.elements, c.kind.EmitsOnly P := by
  constructor
  · intro h
    refine ⟨h.root, ?_⟩
    intro c hc node hnode
    exact h node (.element hc hnode)
  · rintro ⟨hroot, helements⟩ node hnode
    cases hnode with
    | root => exact hroot
    | element hc hnode => exact helements _ hc node hnode

theorem emitsOnly_group {g : Group} : EmitsOnly P (group g) ↔
    P (group g) ∧ (∀ c ∈ g.required, c.kind.EmitsOnly P) ∧
      ∀ c ∈ g.present, c.kind.EmitsOnly P := by
  constructor
  · intro h
    refine ⟨h.root, ?_, ?_⟩
    · intro c hc node hnode
      exact h node (.required hc hnode)
    · intro c hc node hnode
      exact h node (.optional hc hnode)
  · rintro ⟨hroot, hreq, hopt⟩ node hnode
    cases hnode with
    | root => exact hroot
    | required hc hnode => exact hreq _ hc node hnode
    | optional hc hnode => exact hopt _ hc node hnode

end EmitsOnly

/-! ### Present fields -/

theorem sizePresent_eq_marked (marks : List Bool) (cs : List Component) :
    sizePresent marks cs = sizeAll (marked marks cs) := sizePresent_eq marks cs

/-- The present fields are written like any list of fields. -/
theorem writePresent_eq (marks : List Bool) (cs : List Component) (n : Nat) (s : BitStream) :
    writePresent marks cs n s = writeAll (marked marks cs) n s := by
  induction cs generalizing marks n s with
  | nil => cases marks <;> rfl
  | cons c cs ih =>
      rcases marks with _ | ⟨_ | _, marks⟩
      · rfl
      · exact ih marks n s
      · rw [writePresent, if_pos rfl, marked_cons_true, writeAll]
        rcases c.kind.write s with ⟨_ | m, s₁⟩
        · rfl
        · exact ih marks (n + m) s₁

end Kind

end WireTree
