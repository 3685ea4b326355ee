/-
**Sizes of component trees.**

The size of a tree is the number of bits it takes on the wire: of an array, its count field and
its elements; of a group, its required fields, one bit for every optional field, and the optional
fields that are present.  `Kind.size` computes it from the contents alone.

`Kind.measure` answers the same question but trusts the sizes that arrays, groups and bounded
integers remember, and leaves what it had to compute remembered for the next time.  It looks only
where a size is missing, and never into absent fields.

Main definitions:

* `WireTree.Kind.size` — the size of a tree;
* `WireTree.Kind.measure` — the size by what is remembered, and the tree with it remembered.

Main results:

* `WireTree.Kind.sizeAll_eq`, `WireTree.Kind.sizePresent_eq` — the sizes of lists of fields are
  sums.
-/

import WireTree.Component.Basic

set_option relaxedAutoImplicit false
set_option autoImplicit false

namespace WireTree.Kind

/-! ### The size of a tree -/

mutual

/-- The number of bits that a tree takes on the wire. -/
def size : Kind → Nat
  | scalar s => s.size
  | array a => bitsForSpan a.countField.lower a.countField.upper + sizeAll a.elements
  | group g => sizeAll g.required + g.indicator.len + sizePresent g.indicator.toList g.optional
termination_by structural k => k

/-- The number of bits that a list of components takes. -/
def sizeAll : List Component → Nat
  | [] => 0
  | c :: cs => size c.kind + sizeAll cs
termination_by structural cs => cs

/-- The number of bits that the components marked present take. -/
def sizePresent : List Bool → List Component → Nat
  | present :: marks, c :: cs => (if present then size c.kind else 0) + sizePresent marks cs
  | _, [] => 0
  | [], _ :: _ => 0
termination_by structural _ cs => cs

end

theorem sizeAll_eq (cs : List Component) : sizeAll cs = (cs.map fun c => c.kind.size).sum := by
  induction cs with
  | nil => rfl
  | cons c cs ih => simp [sizeAll, ih]

theorem sizePresent_eq (marks : List Bool) (cs : List Component) :
    sizePresent marks cs = sizeAll (((cs.zip marks).filter Prod.snd).map Prod.fst) := by
  induction cs generalizing marks with
  | nil => cases marks <;> rfl
  | cons c cs ih =>
    cases marks with
    | nil => rfl
    | cons present marks => cases present <;> simp [sizePresent, sizeAll, ih]

/-! ### Measuring with a memory -/

mutual

/-- The size of a tree by what it remembers, and the tree with what had to be computed
remembered. -/
def measure : Kind → Nat × Kind
  | scalar s => (s.measure.1, scalar s.measure.2)
  | array a =>
    match a.cachedSize with
    | some n => (n, array a)
    | none =>
      match measureAll 0 [] a.elements with
      | (n, elements) =>
        let total := a.countField.width + n
        (total, array { a with
          countField := a.countField.remember, elements, cachedSize := some total })
  | group g =>
    match g.cachedSize with
    | some n => (n, group g)
    | none =>
      match measureAll 0 [] g.required with
      | (n, required) =>
        match measurePresent g.indicator.toList g.optional with
        | (m, optional) =>
          let total := n + g.indicator.len + m
          (total, group { g with required, optional, cachedSize := some total })
termination_by structural k => k

/-- Measures a list of components, adding to `n`; `done` holds those measured, the last first. -/
def measureAll (n : Nat) (done : List Component) : List Component → Nat × List Component
  | [] => (n, done.reverse)
  | c :: cs =>
    match measure c.kind with
    | (m, kind) => measureAll (n + m) (c.withKind kind :: done) cs
termination_by structural cs => cs

/-- Measures the components marked present. -/
def measurePresent : List Bool → List Component → Nat × List Component
  | present :: marks, c :: cs =>
    match measurePresent marks cs with
    | (n, cs) =>
      if present then
        match measure c.kind with
        | (m, kind) => (m + n, c.withKind kind :: cs)
      else (n, c :: cs)
  | _, [] => (0, [])
  | [], c :: cs => (0, c :: cs)
termination_by structural _ cs => cs

end

/-- Measuring does not change the variant. -/
@[simp] theorem variant_measure (k : Kind) : k.measure.2.variant = k.variant := by
  cases k with
  | scalar s => cases s <;> rfl
  | array a => cases h : a.cachedSize <;> simp [measure, h, variant]
  | group g => cases h : g.cachedSize <;> simp [measure, h, variant]

end WireTree.Kind
