/-
**Remembered sizes are right.**

Arrays, groups and bounded integers remember their sizes, and a change deep inside a tree has to
make everything above it forget.  Whatever operations have been carried out on a tree, at whatever
depth, and wherever sizes have been asked for in between, a size that a node remembers is the size
that its contents have now, so that asking for a size gives what the recursion over the tree gives.

Main definitions:

* `WireTree.Kind.remembered`, `WireTree.Kind.recount` — what a node remembers, and its size from
  the sizes of the nodes right below it;
* `WireTree.Kind.Inside` — the nodes of a tree;
* `WireTree.Kind.Evolves` — what a tree becomes by operations inside it.

Main results:

* `WireTree.remembered_eq_size` — **remembered sizes are right**.
-/

import WireTree.Proofs.Component.Encoding
import WireTree.Proofs.Component.Operations

set_option relaxedAutoImplicit false
set_option autoImplicit false

namespace WireTree

/-! ### The nodes of a tree -/

namespace Kind

/-- The size that a node remembers, if it remembers one. -/
def remembered : Kind → Option Nat
  | scalar (.bounded r) => r.cachedBits
  | scalar _ => none
  | array a => a.cachedSize
  | group g => g.cachedSize

/-- The nodes right below a node: the count field, the prototype and the elements of an array, and
all fields of a group. -/
def children : Kind → List Kind
  | scalar _ => []
  | array a => scalar (.bounded a.countField) :: a.prototype.kind :: a.elements.map Named.kind
  | group g => (g.required ++ g.optional).map Named.kind

/-- The first component is a node of the second. -/
inductive Inside (node : Kind) : Kind → Prop
  | here : Inside node node
  | deeper {k child : Kind} : child ∈ k.children → Inside node child → Inside node k

/-- The size of a node from the sizes of the nodes right below it: of an array, the count field and
all elements; of a group, the required fields, a bit for every optional field, and the optional
fields that are present. -/
def recount : Kind → Nat
  | scalar v => v.size
  | array a => (scalar (.bounded a.countField)).size + (a.elements.map fun c => c.kind.size).sum
  | group g => (g.required.map fun c => c.kind.size).sum + g.optional.length +
      (g.present.map fun c => c.kind.size).sum

variable {k node : Kind}

theorem WellFormed.of_mem_children (h : k.WellFormed) : ∀ child ∈ k.children, child.WellFormed := by
  intro child hchild
  cases h with
  | scalar _ => cases hchild
  | array hcons hproto hwf =>
      simp only [children, List.mem_cons, List.mem_map] at hchild
      rcases hchild with rfl | rfl | ⟨c, hc, rfl⟩
      · exact .scalar hcons.countField_wellFormed
      · exact hproto
      · exact hwf c hc
  | group _ hreq hopt =>
      obtain ⟨c, hc, rfl⟩ := List.mem_map.1 hchild
      rcases List.mem_append.1 hc with hc | hc
      · exact hreq c hc
      · exact hopt c hc

theorem WellFormed.inside (h : k.WellFormed) (hnode : node.Inside k) : node.WellFormed := by
  induction hnode with
  | here => exact h
  | deeper hchild _ ih => exact ih (h.of_mem_children _ hchild)

theorem WellFormed.remembered_eq (h : k.WellFormed) : ∀ n, k.remembered = some n → n = k.size := by
  intro n hn
  cases h with
  | @scalar v hv =>
      cases v with
      | bounded r => exact hv n hn
      | _ => cases hn
  | array hcons _ _ => exact hcons.cachedSize_eq n hn
  | group hcons _ _ => exact hcons.cachedSize_eq n hn

theorem WellFormed.size_eq_recount (h : k.WellFormed) : k.size = k.recount := by
  cases h with
  | scalar _ => rfl
  | @array a _ _ _ =>
      rw [recount, ← sizeAll_eq]
      rfl
  | group hcons _ _ => rw [recount, size_group, sizeAll_eq, sizeAll_eq, hcons.len_indicator]

end Kind

/-! ### What a tree becomes -/

/-- What a tree becomes by operations at any depth, between which sizes of nodes inside are asked
for. -/
inductive Kind.Evolves (k : Kind) : Kind → Prop
  | start : Evolves k k
  | operate {k' : Kind} {op : Operation} (path : List Step) :
      Evolves k k' → op.Admissible → Evolves k ((Edit.within path op.edit).run k').2
  | measure {k' k'' : Kind} : Evolves k k' → k'.MeasuredInside k'' → Evolves k k''

theorem Kind.Reachable.evolves {k k' : Kind} (hk : k.Reachable) (h : k.Evolves k') :
    k'.Reachable := by
  induction h with
  | start => exact hk
  | operate path _ hop ih => exact (Operation.sound hop).within path _ ih
  | measure _ hmeasured ih => exact .measure ih hmeasured

/-- **Remembered sizes are right.**  Whatever a component that comes up has become by operations at
any depth, a size that one of its nodes remembers is the size of what the node holds now; asking
for the size of a node gives that size, and it is what the node takes itself and the sizes of the
nodes below it. -/
theorem remembered_eq_size {k k' node : Kind} (hk : k.Reachable) (hrun : k.Evolves k')
    (hnode : node.Inside k') :
    (∀ n, node.remembered = some n → n = node.size) ∧ node.measure.1 = node.size ∧
      node.size = node.recount := by
  have hwf := (hk.evolves hrun).wellFormed.inside hnode
  exact ⟨hwf.remembered_eq, hwf.measure_fst, hwf.size_eq_recount⟩

/-- The size of a group is asked for, an element of the array in it is given other bounds, and the
size is asked for again: the group has forgotten that it was eight bits, and the array has
thirteen. -/
theorem remembered_eq_size_widened : ∃ k k₁ k₂ k₃ node : Kind, k.Reachable ∧
    k.Evolves k₁ ∧ k₁.remembered = some 8 ∧ k.Evolves k₂ ∧ k₂.remembered = none ∧
    k.Evolves k₃ ∧ k₃.remembered = some 13 ∧ node.Inside k₃ ∧ node.remembered = some 13 ∧
    (∀ n, node.remembered = some n → n = node.size) ∧ node.measure.1 = node.size ∧
    node.size = node.recount := by
  have hdigit : (Kind.scalar (.bounded ⟨0, 0, 7, none, by decide⟩)).Reachable :=
    .bounded (.make (show BoundedInt.make 0 0 7 = _ from rfl))
  have hempty : (Kind.array ⟨⟨none, .scalar (.bounded ⟨0, 0, 7, none, by decide⟩)⟩, 0, 3,
      ⟨0, 0, 3, none, by decide⟩, [], none⟩).Reachable :=
    .make hdigit (show ArrayOf.make ⟨none, _⟩ 0 3 = _ from rfl)
  have hone := Kind.Reachable.pushComponent hempty hdigit
    (show ArrayOf.pushComponent _ ⟨none, _⟩ = _ from rfl)
  have htwo := Kind.Reachable.pushComponent hone hdigit
    (show ArrayOf.pushComponent _ ⟨none, _⟩ = _ from rfl)
  have hgroup := Kind.Reachable.addField .empty htwo
    (show GroupOf.addField _ ⟨some "digits", _⟩ false = _ from rfl)
  have hbounds : (Operation.setBounds 0 255).Admissible := trivial
  have hsized (k : Kind) := Kind.Evolves.start.measure (.here k)
  have hwidened (k : Kind) := (hsized k).operate [.field "digits", .element 1] hbounds
  have hsized' (k : Kind) := (hwidened k).measure (.here _)
  refine ⟨_, _, _, _, _, hgroup, hsized _, rfl, hwidened _, rfl, hsized' _, rfl,
    .deeper (.head _) .here, rfl, ?_⟩
  exact remembered_eq_size hgroup (hsized' _) (.deeper (.head _) .here)

end WireTree
