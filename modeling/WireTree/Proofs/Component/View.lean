/-
**What a reader sees, and what it leaves alone.**

A reader sees the nodes that are written: the values of the leaves, the elements of the arrays,
the presence marks of the groups, the required fields and the present ones.  This is the view of a
tree, and two trees that agree on every node that is written are two trees with the same view.

What a reader does not see it leaves as it was.  An optional field that comes out absent is the
one that stood there before the read, and so are those inside elements of an array, which begin as
copies of the prototype.

Main definitions:

* `WireTree.View`, `WireTree.Kind.view` — the nodes that are written, with their values;
* `WireTree.Kind.Keeps` — a tree that differs from another in nothing but what is written.

Main results:

* `WireTree.Kind.keeps_of_read` — a read changes nothing but what is written.
-/

import WireTree.Proofs.Component.Decoding

set_option relaxedAutoImplicit false
set_option autoImplicit false

namespace WireTree

/-! ### The view of a tree -/

/-- The nodes of a tree that are written, with their values. -/
inductive View where
  /-- A leaf, without anything remembered. -/
  | leaf (v : Scalar)
  /-- The elements of an array, in order. -/
  | array (elements : List View)
  /-- The required fields of a group, its presence marks, and the present fields. -/
  | group (required : List View) (marks : List Bool) (present : List View)

namespace Kind

mutual

/-- The view of a tree. -/
def view : Kind → View
  | scalar v => .leaf v.forget
  | array a => .array (viewAll a.elements)
  | group g =>
    .group (viewAll g.required) g.indicator.toList (viewPresent g.indicator.toList g.optional)
termination_by structural k => k

/-- The views of a list of components. -/
def viewAll : List Component → List View
  | [] => []
  | c :: cs => view c.kind :: viewAll cs
termination_by structural cs => cs

/-- The views of the components marked present. -/
def viewPresent : List Bool → List Component → List View
  | present :: marks, c :: cs => (if present then [view c.kind] else []) ++ viewPresent marks cs
  | _, [] => []
  | [], _ :: _ => []
termination_by structural _ cs => cs

end

theorem viewPresent_eq (marks : List Bool) (cs : List Component) :
    viewPresent marks cs = viewAll (marked marks cs) := by
  induction cs generalizing marks with
  | nil => cases marks <;> rfl
  | cons c cs ih =>
      rcases marks with _ | ⟨_ | _, marks⟩
      · rfl
      · exact ih marks
      · exact congrArg (view c.kind :: ·) (ih marks)

/-! ### What is left alone -/

/-- `k'` has the shape of `k`, the prototypes of `k`, and in every optional field that is absent
from `k'` what stood there in `k`.  The elements of an array are compared with its prototype, of
which they are copies. -/
inductive Keeps : Kind → Kind → Prop
  | scalar (u v : Scalar) : Keeps (.scalar u) (.scalar v)
  | array {a b : ArrayField} : b.prototype = a.prototype →
      (∀ c ∈ b.elements, Keeps a.prototype.kind c.kind) → Keeps (.array a) (.array b)
  | group {f g : Group} : g.required.length = f.required.length →
      g.optional.length = f.optional.length →
      (∀ (i : Nat) (c d : Component), f.required[i]? = some c → g.required[i]? = some d →
        Keeps c.kind d.kind) →
      (∀ (i : Nat) (c d : Component), f.optional[i]? = some c → g.optional[i]? = some d →
        g.indicator.get i = true → Keeps c.kind d.kind) →
      (∀ i : Nat, g.indicator.get i = false → g.optional[i]? = f.optional[i]?) →
      Keeps (.group f) (.group g)

variable {k k' : Kind} {s s' : BitStream} {n : Nat}

theorem keeps_of_readAll {cs cs' : List Component}
    (hcs : ∀ c ∈ cs, ∀ {s s' n k'}, c.kind.read s = (.ok n, k', s') → c.kind.Keeps k')
    (h : readAll cs s = (.ok n, cs', s')) :
    cs'.length = cs.length ∧ ∀ (i : Nat) (c d : Component), cs[i]? = some c → cs'[i]? = some d →
      c.kind.Keeps d.kind := by
  induction cs generalizing n cs' s with
  | nil =>
      cases h
      refine ⟨rfl, ?_⟩
      intro i c d hc
      simp at hc
  | cons c cs ih =>
      obtain ⟨hc, hrest⟩ := List.forall_mem_cons.1 hcs
      obtain ⟨l, kind, s₁, m, rest, h₁, h₂, rfl, rfl⟩ := readAll_cons_eq_ok_iff.1 h
      obtain ⟨hlen, hkeeps⟩ := ih hrest h₂
      refine ⟨congrArg (· + 1) hlen, ?_⟩
      intro i c' d hc' hd
      cases i with
      | zero =>
          cases hc'
          cases hd
          exact hc h₁
      | succ i => exact hkeeps i c' d hc' hd

theorem keeps_of_readPresent {marks : List Bool} {cs cs' : List Component}
    (hcs : ∀ c ∈ cs, ∀ {s s' n k'}, c.kind.read s = (.ok n, k', s') → c.kind.Keeps k')
    (h : readPresent marks cs s = (.ok n, cs', s')) :
    cs'.length = cs.length ∧
      (∀ (i : Nat) (c d : Component), cs[i]? = some c → cs'[i]? = some d →
        marks[i]? = some true → c.kind.Keeps d.kind) ∧
      ∀ i : Nat, marks[i]? ≠ some true → cs'[i]? = cs[i]? := by
  induction cs generalizing marks n cs' s with
  | nil =>
      rcases marks with _ | ⟨_, marks⟩ <;> cases h <;>
        exact ⟨rfl, fun i c d hc => by simp at hc, fun i _ => rfl⟩
  | cons c cs ih =>
      obtain ⟨hc, hrest⟩ := List.forall_mem_cons.1 hcs
      rcases marks with _ | ⟨_ | _, marks⟩
      · cases h
        refine ⟨rfl, ?_, fun i _ => rfl⟩
        intro i c d _ _ hmark
        simp at hmark
      · obtain ⟨rest, h₁, rfl⟩ := readPresent_cons_false_eq_ok_iff.1 h
        obtain ⟨hlen, hkeeps, hsame⟩ := ih hrest h₁
        refine ⟨congrArg (· + 1) hlen, ?_, ?_⟩
        · intro i c' d hc' hd hmark
          cases i with
          | zero => cases hmark
          | succ i => exact hkeeps i c' d hc' hd hmark
        · intro i hmark
          cases i with
          | zero => rfl
          | succ i => exact hsame i hmark
      · obtain ⟨l, kind, s₁, m, rest, h₁, h₂, rfl, rfl⟩ := readPresent_cons_true_eq_ok_iff.1 h
        obtain ⟨hlen, hkeeps, hsame⟩ := ih hrest h₂
        refine ⟨congrArg (· + 1) hlen, ?_, ?_⟩
        · intro i c' d hc' hd hmark
          cases i with
          | zero =>
              cases hc'
              cases hd
              exact hc h₁
          | succ i => exact hkeeps i c' d hc' hd hmark
        · intro i hmark
          cases i with
          | zero => exact absurd rfl hmark
          | succ i => exact hsame i hmark

end Kind

theorem BitSet.getElem?_toList (b : BitSet) (i : Nat) :
    b.toList[i]? = some true ↔ b.get i = true := by
  by_cases hi : i < b.len
  · simp [toList, hi]
  · simp [toList, hi, get_of_le (Nat.not_lt.1 hi)]

namespace Kind

variable {k k' : Kind} {s s' : BitStream} {n : Nat}

/-- A read changes nothing but what is written. -/
theorem keeps_of_read (h : k.read s = (.ok n, k', s')) : k.Keeps k' := by
  induction k using Kind.induction generalizing s s' n k' with
  | scalar v =>
      obtain ⟨v', -, rfl⟩ := read_scalar_eq_ok_iff.1 h
      exact .scalar v v'
  | array a ih _ =>
      obtain ⟨count, s₁, elements, -, -, h₂, rfl⟩ := read_array_eq_ok_iff.1 h
      -- every new element began as a copy of the prototype
      have hcopy : ∀ {s m c s'}, readCopy a.prototype s = (.ok m, c, s') →
          a.prototype.kind.Keeps c.kind := by
        intro s m c s' hr
        obtain ⟨kind, h₁, rfl⟩ : ∃ kind, a.prototype.kind.read s = (.ok m, kind, s') ∧
            c = a.prototype.withKind kind := by
          grind [readCopy]
        exact ih h₁
      have hcopies := ArrayOf.forall_of_readCopies
        (P := fun c : Component => a.prototype.kind.Keeps c.kind) hcopy (List.forall_mem_nil _) h₂
      exact .array rfl hcopies.2
  | group g ihreq ihopt =>
      obtain ⟨l, required, s₁, m, indicator, s₂, j, optional, h₁, -, h₃, rfl, rfl⟩ :=
        read_group_eq_ok_iff.1 h
      obtain ⟨hlen, hreq⟩ := keeps_of_readAll (fun c hc => ihreq c hc) h₁
      obtain ⟨hlen', hopt, hsame⟩ := keeps_of_readPresent (fun c hc => ihopt c hc) h₃
      refine .group hlen hlen' hreq ?_ ?_
      · intro i c d hc hd hmark
        exact hopt i c d hc hd ((indicator.getElem?_toList i).2 hmark)
      · intro i hmark
        refine hsame i ?_
        intro hmark'
        rw [(indicator.getElem?_toList i).1 hmark'] at hmark
        cases hmark

end Kind

end WireTree
