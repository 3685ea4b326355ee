/-
**What a read that fails leaves.**

A leaf or an array of which a single bit is missing is as it was before: a leaf is given its value
after its last word has been read, and an array its elements after the last of them, however far
inside an element the failure lies.  A group is half read.  Its parts are read one after another,
first the required fields, then the marks, then the optional fields that the marks in force name,
and the read stops at one of them.  The parts before it have been read, it is itself as its own read
has left it, and the parts after it are as they were.

A part may be an array or a group again, so the two ways to fail alternate down the tree.

Main definitions:

* `WireTree.Part` — the parts of a group;
* `WireTree.GroupOf.StoppedAt` — a group of which the read has stopped at a part.

Main results:

* `WireTree.GroupOf.StoppedAt.part_eq` — the read of a group stops at one part only;
* `WireTree.left_by_failed_read` — **what a read that fails leaves**.
-/

import WireTree.Proofs.Component.FieldLists
import WireTree.Proofs.Component.InTurn
import WireTree.Proofs.Component.View

set_option relaxedAutoImplicit false
set_option autoImplicit false

namespace WireTree

/-! ### Leaves and arrays -/

/-- A leaf that cannot be read stays as it was. -/
theorem Scalar.eq_of_read_error {v v' : Scalar} {s s' : BitStream} {e : WireError}
    (h : v.read s = (.error e, v', s')) : v' = v := by
  by_cases htext : v.variant = .text
  · obtain ⟨t, rfl⟩ := eq_text_of_variant htext
    rcases ht : s.readText with ⟨_ | t', s₁⟩ <;>
      simp only [read, BitSource.readText_stream, ht] at h <;> cases h
    rfl
  · rw [read_of_ne_text htext] at h
    rcases hw : s.readWords v.widths with ⟨_ | words, s₁⟩ <;> rw [hw] at h <;> cases h
    rfl

namespace Kind

variable {k' : Kind} {s s' : BitStream} {e : WireError}

/-- An array of which the count or an element cannot be read stays as it was. -/
theorem eq_of_read_array_error {a : ArrayField} (h : (array a).read s = (.error e, k', s')) :
    k' = array a := by
  rw [read_array] at h
  rcases hcount : a.readCount s with ⟨_ | count, s₁⟩ <;> rw [hcount] at h
  · cases h
    rfl
  · simp only at h
    split at h
    · split at h <;> cases h
      rfl
    · cases h
      rfl

end Kind

/-! ### Groups -/

/-- The parts of a group, in the order in which they are read. -/
inductive Part where
  /-- The required field of this index. -/
  | required (index : Nat)
  /-- The presence marks. -/
  | marks
  /-- The optional field of this index. -/
  | optional (index : Nat)
deriving DecidableEq

namespace GroupOf

/-- The read of `g` has stopped with `e` at a part: the parts before it have been read, the part is
as its own read has left it, and the parts after it, the fields without a mark and the table of
names are as they were. -/
inductive StoppedAt (g : Group) (s : BitStream) (e : WireError) : Part → Group → BitStream → Prop
  | required {i : Nat} {required : List Component} {s' : BitStream} :
      FailsAt (List.replicate g.required.length true) g.required s e i required s' →
      StoppedAt g s e (.required i) { g with required, cachedSize := none } s'
  | marks {required : List Component} {s₁ s' : BitStream} :
      ReadInTurn (List.replicate g.required.length true) g.required s required s₁ →
      g.indicator.read s₁ = (.error e, g.indicator, s') →
      StoppedAt g s e .marks { g with required, cachedSize := none } s'
  | optional {required optional : List Component} {s₁ s₂ s' : BitStream} {n i : Nat}
      {indicator : BitSet} :
      ReadInTurn (List.replicate g.required.length true) g.required s required s₁ →
      g.indicator.read s₁ = (.ok n, indicator, s₂) →
      FailsAt indicator.toList g.optional s₂ e i optional s' →
      StoppedAt g s e (.optional i)
        { g with required, indicator, optional, cachedSize := none } s'

variable {g g' g'' : Group} {s s' s'' : BitStream} {e e' : WireError} {p q : Part}

namespace StoppedAt

/-- The read of a group stops at one part only. -/
theorem part_eq (h : StoppedAt g s e p g' s') (h' : StoppedAt g s e' q g'' s'') : p = q := by
  cases h with
  | required hfail =>
      cases h' with
      | required hfail' => rw [hfail.index_eq hfail']
      | marks hrequired _ => exact absurd hfail hrequired.not_failsAt
      | optional hrequired _ _ => exact absurd hfail hrequired.not_failsAt
  | marks hrequired hmarks =>
      cases h' with
      | required hfail => exact absurd hfail hrequired.not_failsAt
      | marks _ _ => rfl
      | optional hrequired' hmarks' _ =>
          obtain ⟨rfl, rfl⟩ := hrequired.unique hrequired'
          cases hmarks.symm.trans hmarks'
  | optional hrequired hmarks hfail =>
      cases h' with
      | required hfail' => exact absurd hfail' hrequired.not_failsAt
      | marks hrequired' hmarks' =>
          obtain ⟨rfl, rfl⟩ := hrequired.unique hrequired'
          cases hmarks.symm.trans hmarks'
      | optional hrequired' hmarks' hfail' =>
          obtain ⟨rfl, rfl⟩ := hrequired.unique hrequired'
          cases hmarks.symm.trans hmarks'
          rw [hfail.index_eq hfail']

/-- Optional fields without a mark in force are as they were. -/
theorem getElem?_optional (h : StoppedAt g s e p g' s') {j : Nat}
    (hj : g'.indicator.get j = false) : g'.optional[j]? = g.optional[j]? := by
  cases h with
  | required _ => rfl
  | marks _ _ => rfl
  | optional _ _ hfail =>
      refine hfail.getElem?_eq ?_
      intro hmark
      rw [BitSet.getElem?_toList] at hmark
      cases hmark.symm.trans hj

end StoppedAt

/-- A read of a group that fails has stopped at a part. -/
theorem exists_stoppedAt {k' : Kind} (h : (Kind.group g).read s = (.error e, k', s')) :
    ∃ g' part, k' = .group g' ∧ StoppedAt g s e part g' s' := by
  have hall := Kind.readAll_eq g.required s
  rw [Kind.read] at h
  simp only [forget] at h
  rcases hr : Kind.readAll g.required s with ⟨_ | n, required, s₁⟩ <;> rw [hr] at h hall
  · cases h
    obtain ⟨i, hfail⟩ := exists_failsAt_iff.2 hall.symm
    exact ⟨_, _, rfl, .required hfail⟩
  · have hrequired := readInTurn_iff.2 ⟨List.length_replicate, n, hall.symm⟩
    simp only at h
    rcases hm : g.indicator.read s₁ with ⟨_ | m, indicator, s₂⟩ <;> rw [hm] at h
    · cases h
      cases BitSet.eq_of_read_error hm
      exact ⟨_, _, rfl, .marks hrequired hm⟩
    · -- from here on the marks just read are in force
      simp only at h
      rcases ho : Kind.readPresent indicator.toList g.optional s₂ with ⟨_ | l, optional, s₃⟩ <;>
        rw [ho] at h <;> cases h
      obtain ⟨i, hfail⟩ := exists_failsAt_iff.2 ho
      exact ⟨_, _, rfl, .optional hrequired hm hfail⟩

end GroupOf

/-! ### Trees -/

/-- **What a read that fails leaves.**  Whatever component it is, and wherever the stream stands: a
leaf or an array is as it was before.  A group has stopped at one of its parts, before which all is
read and behind which all is as it was; and an optional field without a mark in force is as it was,
wherever the read has stopped. -/
theorem left_by_failed_read {k k' : Kind} {s s' : BitStream} {e : WireError}
    (h : k.read s = (.error e, k', s')) :
    (k.variant ≠ .group → k' = k) ∧
    ∀ g, k = .group g → ∃ g', k' = .group g' ∧ (∃! part, g.StoppedAt s e part g' s') ∧
      ∀ j, g'.indicator.get j = false → g'.optional[j]? = g.optional[j]? := by
  refine ⟨?_, ?_⟩
  · intro hvariant
    cases k with
    | scalar v =>
        rcases hr : v.read s with ⟨r, v', s₁⟩
        simp only [Kind.read, hr] at h
        cases h
        rw [Scalar.eq_of_read_error hr]
    | array a => exact Kind.eq_of_read_array_error h
    | group g => exact absurd rfl hvariant
  · rintro g rfl
    obtain ⟨g', part, rfl, hstop⟩ := GroupOf.exists_stoppedAt h
    exact ⟨g', rfl, ⟨part, hstop, fun _ hstop' => hstop'.part_eq hstop⟩,
      fun j hj => hstop.getElem?_optional hj⟩

/-- A byte and an array of bytes are required, and the second element of the array is missing.  The
byte has been read, and the array has the element it had. -/
theorem left_by_failed_read_element : ∃ (g g' : Group) (a : ArrayField) (s s' : BitStream),
    (Kind.group g).read s = (.error (.underrun 8 6), .group g', s') ∧
    (∃! part, g.StoppedAt s (.underrun 8 6) part g' s') ∧
    g.required = [⟨none, .scalar (.u8 0)⟩, ⟨none, .array a⟩] ∧ a.len = 1 ∧
    g'.required = [⟨none, .scalar (.u8 5)⟩, ⟨none, .array a⟩] := by
  have hread (a : ArrayField) (ha : a = ⟨⟨none, .scalar (.u8 0)⟩, 0, 3,
      ⟨1, 0, 3, none, by decide⟩, [⟨none, .scalar (.u8 9)⟩], none⟩) :
      (Kind.group ⟨[⟨none, .scalar (.u8 0)⟩, ⟨none, .array a⟩], [], .replicate 0, [], none⟩).read
        (.ofBytes #[5, 128, 0]) = (.error (.underrun 8 6),
      .group ⟨[⟨none, .scalar (.u8 5)⟩, ⟨none, .array a⟩], [], .replicate 0, [], none⟩,
      (BitStream.ofBytes #[5, 128, 0]).advance 18) := by
    subst ha
    rfl
  obtain ⟨g', hg', hstop, -⟩ := (left_by_failed_read (hread _ rfl)).2 _ rfl
  obtain rfl := Kind.group.inj hg'
  exact ⟨_, _, _, _, _, hread _ rfl, hstop, rfl, rfl, rfl⟩

end WireTree
