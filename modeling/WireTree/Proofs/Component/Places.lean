/-
**Which places of a tree a read comes to.**

A place of a tree is told by a path, which leads through fields of groups, elements of arrays and
prototypes.  A read goes down some of these paths.  It comes to a required field if those before it
can be read, to an optional field if the marks just read name it, and to a prototype once for every
element, which it reads into a copy.  It never comes to an element that is there already: old
elements are kept, or replaced all at once.

So an optional field is left as it was, however the read ends, unless marks that were read for its
group name it, or an array around it has been given new elements.

Main definitions:

* `WireTree.Place`, `WireTree.Kind.at?`, `WireTree.Kind.optionalAt?` — paths and what they lead to;
* `WireTree.ComesTo`, `WireTree.Kind.StepsInto` — what a read comes to, and with which stream;
* `WireTree.Kind.Decodes`, `WireTree.Kind.Marks` — the marks that a read decodes on its way;
* `WireTree.Kind.Replaces` — a read replaces the elements of an array on a path.

Main results:

* `WireTree.Kind.leaves_of_not_marks` — an optional field that no mark names is left as it was.
-/

import WireTree.Proofs.Component.HalfRead

set_option relaxedAutoImplicit false
set_option autoImplicit false

namespace WireTree

/-! ### Paths -/

/-- The places of components in an array or a group. -/
inductive Place where
  /-- A field of a group. -/
  | field (slot : Slot)
  /-- The prototype of an array. -/
  | prototype
  /-- The element of this index. -/
  | element (index : Nat)
deriving DecidableEq

namespace Kind

/-- The component at a place, if there is one. -/
def child : Kind → Place → Option Component
  | group g, .field slot => g.fieldAt? slot
  | array a, .prototype => some a.prototype
  | array a, .element i => a.get? i
  | _, _ => none

/-- The node that a path leads to, if it leads to one. -/
def at? : Kind → List Place → Option Kind
  | k, [] => some k
  | k, place :: path => (k.child place).bind fun c => c.kind.at? path

/-- The optional field of an index of the group that a path leads to. -/
def optionalAt? (k : Kind) (path : List Place) (i : Nat) : Option Component :=
  (k.at? path).bind fun node => node.child (.field (.optional i))

theorem optionalAt?_cons (k : Kind) (place : Place) (path : List Place) (i : Nat) :
    k.optionalAt? (place :: path) i =
      (k.child place).bind fun c => c.kind.optionalAt? path i := by
  rw [optionalAt?, at?, Option.bind_assoc]
  rfl

end Kind

/-! ### Coming to a field -/

/-- Reading those of the fields `cs` that have a mark, one after another, comes to the field `d` of
an index, with the stream `t`. -/
inductive ComesTo : List Bool → List Component → BitStream → Nat → Component → BitStream → Prop
  | here {marks : List Bool} {c : Component} {cs : List Component} {s : BitStream} :
      ComesTo (true :: marks) (c :: cs) s 0 c s
  | absent {marks : List Bool} {c d : Component} {cs : List Component} {s t : BitStream} {i : Nat} :
      ComesTo marks cs s i d t → ComesTo (false :: marks) (c :: cs) s (i + 1) d t
  | present {marks : List Bool} {c d : Component} {cs : List Component} {s s₁ t : BitStream}
      {n i : Nat} {kind : Kind} : c.kind.read s = (.ok n, kind, s₁) → ComesTo marks cs s₁ i d t →
      ComesTo (true :: marks) (c :: cs) s (i + 1) d t

section ComesTo

variable {marks : List Bool} {cs : List Component} {c : Component} {s t : BitStream} {i : Nat}

theorem ComesTo.getElem?_eq (h : ComesTo marks cs s i c t) : cs[i]? = some c := by
  induction h with
  | here => rfl
  | absent _ ih => exact ih
  | present _ _ ih => exact ih

/-- A read comes to fields with a mark only. -/
theorem ComesTo.mark_eq (h : ComesTo marks cs s i c t) : marks[i]? = some true := by
  induction h with
  | here => rfl
  | absent _ ih => exact ih
  | present _ _ ih => exact ih

/-- However reading by marks ends, a field is as it was, or the read has come to it and it is as its
own read has left it. -/
theorem Kind.getElem?_readPresent (marks : List Bool) (cs : List Component) (s : BitStream)
    (i : Nat) : (readPresent marks cs s).2.1[i]? = cs[i]? ∨
      ∃ c t, ComesTo marks cs s i c t ∧
        (readPresent marks cs s).2.1[i]? = some (c.withKind (c.kind.read t).2.1) := by
  induction cs generalizing marks s i with
  | nil => cases marks <;> exact .inl rfl
  | cons c cs ih =>
      rcases marks with _ | ⟨_ | _, marks⟩
      · exact .inl rfl
      · rw [readPresent, if_neg Bool.false_ne_true]
        cases i with
        | zero => exact .inl rfl
        | succ i =>
            rcases ih marks s i with hsame | ⟨d, t, hcomes, hread⟩
            · exact .inl hsame
            · exact .inr ⟨d, t, hcomes.absent, hread⟩
      · rcases hc : c.kind.read s with ⟨_ | n, kind, s₁⟩
        · rw [readPresent, if_pos rfl, hc]
          cases i with
          | zero => exact .inr ⟨c, s, .here, by rw [hc]; rfl⟩
          | succ i => exact .inl rfl
        · -- the rest begins where the first field has ended
          have hfields : (readPresent (true :: marks) (c :: cs) s).2.1 =
              c.withKind kind :: (readPresent marks cs s₁).2.1 := by
            simp only [readPresent, if_pos, hc]
            rcases readPresent marks cs s₁ with ⟨_ | m, cs', s₂⟩ <;> rfl
          rw [hfields]
          cases i with
          | zero => exact .inr ⟨c, s, .here, by rw [hc]; rfl⟩
          | succ i =>
              rcases ih marks s₁ i with hsame | ⟨d, t, hcomes, hread⟩
              · exact .inl hsame
              · exact .inr ⟨d, t, .present hc hcomes, hread⟩

end ComesTo

/-! ### Going down a tree -/

namespace Kind

/-- Reading `k` from `s` comes to the component `c` at a place, with the stream `t`.  An array reads
its prototype as often as it has elements to read. -/
inductive StepsInto : Kind → BitStream → Place → Component → BitStream → Prop
  | required {g : Group} {s t : BitStream} {i : Nat} {c : Component} :
      ComesTo (List.replicate g.required.length true) g.required s i c t →
      StepsInto (.group g) s (.field (.required i)) c t
  | optional {g : Group} {s s₁ s₂ t : BitStream} {n m i : Nat} {required : List Component}
      {indicator : BitSet} {c : Component} : readAll g.required s = (.ok n, required, s₁) →
      g.indicator.read s₁ = (.ok m, indicator, s₂) →
      ComesTo indicator.toList g.optional s₂ i c t →
      StepsInto (.group g) s (.field (.optional i)) c t
  | copy {a : ArrayField} {s s₁ t : BitStream} {count i : Nat} {c : Component} :
      a.readCount s = (.ok count, s₁) → a.admits count = true →
      ComesTo (List.replicate count true) (List.replicate count a.prototype) s₁ i c t →
      StepsInto (.array a) s .prototype c t

/-- Reading `k` from `s` decodes marks for the group that a path leads to. -/
inductive Decodes : Kind → BitStream → List Place → BitSet → Prop
  | here {g : Group} {s s₁ s₂ : BitStream} {n m : Nat} {required : List Component}
      {indicator : BitSet} : readAll g.required s = (.ok n, required, s₁) →
      g.indicator.read s₁ = (.ok m, indicator, s₂) → Decodes (.group g) s [] indicator
  | inside {k : Kind} {s t : BitStream} {place : Place} {path : List Place} {c : Component}
      {indicator : BitSet} : k.StepsInto s place c t → Decodes c.kind t path indicator →
      Decodes k s (place :: path) indicator

/-- Reading `k` from `s` goes through for an array on the path, the elements of which the path
enters; so they are replaced. -/
inductive Replaces : Kind → BitStream → List Place → Prop
  | here {a : ArrayField} {s s' : BitStream} {n i : Nat} {k' : Kind} {path : List Place} :
      (array a).read s = (.ok n, k', s') → Replaces (.array a) s (.element i :: path)
  | inside {k : Kind} {s t : BitStream} {slot : Slot} {path : List Place} {c : Component} :
      k.StepsInto s (.field slot) c t → Replaces c.kind t path →
      Replaces k s (.field slot :: path)

/-- Reading `k` from `s` decodes marks that name the optional field of an index of the group that a
path leads to. -/
def Marks (k : Kind) (s : BitStream) (path : List Place) (i : Nat) : Prop :=
  ∃ indicator, k.Decodes s path indicator ∧ indicator.get i = true

/-- Reading `k` from `s` leaves the optional field of an index of the group that a path leads to as
it was, or replaces all elements of an array around it. -/
def Leaves (k : Kind) (s : BitStream) (path : List Place) (i : Nat) : Prop :=
  (k.read s).2.1.optionalAt? path i = k.optionalAt? path i ∨ k.Replaces s path

variable {k : Kind} {s t : BitStream} {place : Place} {path : List Place} {c : Component} {i : Nat}

theorem StepsInto.child_eq (h : k.StepsInto s place c t) : k.child place = some c := by
  cases h with
  | required hcomes => exact hcomes.getElem?_eq
  | optional _ _ hcomes => exact hcomes.getElem?_eq
  | copy _ _ hcomes =>
      have hcopy := List.eq_of_mem_replicate (List.mem_of_getElem? hcomes.getElem?_eq)
      rw [hcopy]
      rfl

/-- Marks further down are marks of the whole tree. -/
theorem Marks.inside (hstep : k.StepsInto s place c t) (h : c.kind.Marks t path i) :
    k.Marks s (place :: path) i := by
  obtain ⟨indicator, hdecodes, hmark⟩ := h
  exact ⟨indicator, .inside hstep hdecodes, hmark⟩

/-! ### What a read leaves -/

/-- However the read of an array ends, its prototype stays. -/
theorem exists_read_array (a : ArrayField) (s : BitStream) :
    ∃ b : ArrayField, ((array a).read s).2.1 = array b ∧ b.prototype = a.prototype := by
  rcases h : (array a).read s with ⟨_ | n, k', s'⟩
  · exact ⟨a, eq_of_read_array_error h, rfl⟩
  · obtain ⟨_, _, elements, _, _, _, rfl⟩ := read_array_eq_ok_iff.1 h
    exact ⟨a.withElements elements, rfl, rfl⟩

/-- However the read of a group ends, a field is as it was, or the read has come to it and it is as
its own read has left it. -/
theorem exists_read_group (g : Group) (s : BitStream) :
    ∃ g' : Group, ((group g).read s).2.1 = group g' ∧
      ∀ slot, g'.fieldAt? slot = g.fieldAt? slot ∨
        ∃ c t, (group g).StepsInto s (.field slot) c t ∧
          g'.fieldAt? slot = some (c.withKind (c.kind.read t).2.1) := by
  have hrequired (i : Nat) : (readAll g.required s).2.1[i]? = g.required[i]? ∨
      ∃ c t, (group g).StepsInto s (.field (.required i)) c t ∧
        (readAll g.required s).2.1[i]? = some (c.withKind (c.kind.read t).2.1) := by
    rw [readAll_eq]
    rcases getElem?_readPresent (List.replicate g.required.length true) g.required s i with
      hsame | ⟨c, t, hcomes, hread⟩
    · exact .inl hsame
    · exact .inr ⟨c, t, .required hcomes, hread⟩
  rcases hr : readAll g.required s with ⟨_ | n, required, s₁⟩ <;> rw [hr] at hrequired
  · refine ⟨{ g with required, cachedSize := none }, ?_, ?_⟩
    · simp only [read, GroupOf.forget, hr]
    · intro slot
      cases slot with
      | required i => exact hrequired i
      | optional i => exact .inl rfl
  · rcases hm : g.indicator.read s₁ with ⟨_ | m, indicator, s₂⟩
    · refine ⟨{ g with required, indicator, cachedSize := none }, ?_, ?_⟩
      · simp only [read, GroupOf.forget, hr, hm]
      · intro slot
        cases slot with
        | required i => exact hrequired i
        | optional i => exact .inl rfl
    · -- only now can the read come to an optional field
      refine ⟨{ g with
        required, indicator, optional := (readPresent indicator.toList g.optional s₂).2.1
        cachedSize := none }, ?_, ?_⟩
      · simp only [read, GroupOf.forget, hr, hm]
        rcases readPresent indicator.toList g.optional s₂ with ⟨_ | l, optional, s₃⟩ <;> rfl
      · intro slot
        cases slot with
        | required i => exact hrequired i
        | optional i =>
            rcases getElem?_readPresent indicator.toList g.optional s₂ i with
              hsame | ⟨c, t, hcomes, hread⟩
            · exact .inl hsame
            · exact .inr ⟨c, t, .optional hr hm hcomes, hread⟩

/-- An optional field of the group itself that no mark names is left as it was. -/
theorem leaves_nil (h : ¬ k.Marks s [] i) :
    (k.read s).2.1.optionalAt? [] i = k.optionalAt? [] i := by
  cases k with
  | scalar v => rfl
  | array a =>
      obtain ⟨b, hread, -⟩ := exists_read_array a s
      rw [hread]
      rfl
  | group g =>
      obtain ⟨g', hread, hfields⟩ := exists_read_group g s
      rw [hread]
      rcases hfields (.optional i) with hsame | ⟨c, t, hstep, -⟩
      · exact hsame
      · cases hstep with
        | @optional _ _ _ _ _ _ _ _ _ indicator _ hr hm hcomes =>
            have hmark := (indicator.getElem?_toList i).1 hcomes.mark_eq
            exact absurd ⟨indicator, .here hr hm, hmark⟩ h

/-- **What a read leaves alone.**  Whatever tree it is, and however the read ends: an optional field
that is named by no marks decoded for its group is as it was, unless an array around it has been
given new elements. -/
theorem leaves_of_not_marks (h : ¬ k.Marks s path i) : k.Leaves s path i := by
  -- on the path; what stands at its first place is read from another stream
  induction path generalizing k s with
  | nil => exact .inl (leaves_nil h)
  | cons place path ih =>
      have hsame (hchild : (k.read s).2.1.child place = k.child place) :
          k.Leaves s (place :: path) i := by
        refine .inl ?_
        rw [optionalAt?_cons, optionalAt?_cons, hchild]
      cases k with
      | scalar v => exact hsame rfl
      | array a =>
          obtain ⟨b, hread, hproto⟩ := exists_read_array a s
          cases place with
          | field slot => exact hsame (by rw [hread]; rfl)
          | prototype => exact hsame (by rw [hread]; exact congrArg some hproto)
          | element j =>
              rcases hr : (array a).read s with ⟨_ | n, k', s'⟩
              · exact hsame (by rw [hr, eq_of_read_array_error hr])
              · exact .inr (.here hr)
      | group g =>
          obtain ⟨g', hread, hfields⟩ := exists_read_group g s
          cases place with
          | prototype => exact hsame (by rw [hread]; rfl)
          | element j => exact hsame (by rw [hread]; rfl)
          | field slot =>
              rcases hfields slot with hslot | ⟨c, t, hstep, hslot⟩
              · exact hsame (by rw [hread]; exact hslot)
              · -- the field is as its own read has left it, which decodes no marks but these
                have hmarks : ¬ c.kind.Marks t path i := fun hc => h (.inside hstep hc)
                rcases ih hmarks with hleft | hreplaced
                · refine .inl ?_
                  have hchild : (group g').child (.field slot) =
                      some (c.withKind (c.kind.read t).2.1) := hslot
                  rw [optionalAt?_cons, optionalAt?_cons, hread, hchild, hstep.child_eq]
                  exact hleft
                · exact .inr (.inside hstep hreplaced)

end Kind

end WireTree
