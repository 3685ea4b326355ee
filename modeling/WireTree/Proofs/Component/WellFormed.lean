/-
**What holds of every component.**

The parts of an array and of a group have to be kept in step: the count field of an array has the
bounds of the array and counts its elements, a group has as many marks as optional fields, and a
size that is remembered is the size.  A component in which this holds of every node, those inside
prototypes and absent fields included, is *well-formed*.

Reading keeps a component well-formed even when it fails in the middle, and measuring one gives
its size.

Main definitions:

* `WireTree.ArrayOf.Consistent`, `WireTree.GroupOf.Consistent` — the invariant of one node;
* `WireTree.Kind.WellFormed` — the invariant of a tree.

Main results:

* `WireTree.Kind.WellFormed.measure_fst`, `WireTree.Kind.WellFormed.measure` — the size by what is
  remembered is the size, and what measuring remembers is right;
* `WireTree.Kind.WellFormed.read`, `WireTree.Kind.WellFormed.clear` — reading and clearing keep a
  component well-formed.
-/

import WireTree.Proofs.Scalar

set_option relaxedAutoImplicit false
set_option autoImplicit false

namespace WireTree

/-! ### One node -/

/-- The count field has the bounds of the array and counts its elements, which are of the variant
of the prototype and not too many; a size that is remembered is the size. -/
structure ArrayOf.Consistent (a : ArrayField) : Prop where
  /-- The count field begins at the fewest elements. -/
  lower_eq : a.countField.lower.toInt = a.minCount
  /-- The count field ends at the most elements. -/
  upper_eq : a.countField.upper.toInt = a.maxCount
  /-- The width that the count field remembers is right. -/
  countField_wellFormed : a.countField.WellFormed
  /-- The count field counts the elements. -/
  value_eq : a.countField.value.toInt = a.len
  /-- There are not too many elements. -/
  len_le : a.len ≤ a.maxCount
  /-- All elements are of the variant of the prototype. -/
  variant_eq : ∀ c ∈ a.elements, c.kind.variant = a.prototype.kind.variant
  /-- A size that is remembered is the size. -/
  cachedSize_eq : ∀ n, a.cachedSize = some n → n = (Kind.array a).size

/-- There is a mark for every optional field, and a size that is remembered is the size. -/
structure GroupOf.Consistent (g : Group) : Prop where
  /-- The marks are well-formed. -/
  indicator_wellFormed : g.indicator.WellFormed
  /-- There is a mark for every optional field. -/
  len_indicator : g.indicator.len = g.optional.length
  /-- A size that is remembered is the size. -/
  cachedSize_eq : ∀ n, g.cachedSize = some n → n = (Kind.group g).size

namespace ArrayOf

theorem admits_iff {α : Type} {a : ArrayOf α} {count : Nat} :
    a.admits count = true ↔ a.minCount ≤ count ∧ count ≤ a.maxCount := by
  simp [admits]

variable {a : ArrayField}

theorem Consistent.min_le_max (h : a.Consistent) : a.minCount ≤ a.maxCount := by
  have hle := Int32.le_iff_toInt_le.1 a.countField.lower_le_upper
  have hlower := h.lower_eq
  have hupper := h.upper_eq
  omega

/-- The count field can hold every number of elements there may be. -/
theorem Consistent.max_lt (h : a.Consistent) : a.maxCount < 2 ^ 31 := by
  have hlt := a.countField.upper.toInt_lt
  have hupper := h.upper_eq
  omega

theorem Consistent.forget (h : a.Consistent) : a.forget.Consistent :=
  { h with
    cachedSize_eq := by
      intro n hn
      cases hn }

/-- Elements of the right variant, and not too many, may take the place of the old ones. -/
theorem Consistent.withElements (h : a.Consistent) {elements : List Component}
    (hlen : elements.length ≤ a.maxCount)
    (hvariant : ∀ c ∈ elements, c.kind.variant = a.prototype.kind.variant) :
    (a.withElements elements).Consistent where
  lower_eq := h.lower_eq
  upper_eq := h.upper_eq
  countField_wellFormed := BoundedInt.WellFormed.of_eq h.countField_wellFormed rfl rfl rfl
  value_eq := by
    have hmax := h.max_lt
    exact Int32.toInt_ofNat_of_lt (by omega)
  len_le := hlen
  variant_eq := hvariant
  cachedSize_eq n hn := by cases hn

/-- Elements may also be exchanged one for one, which leaves the count field as it is. -/
theorem Consistent.exchange (h : a.Consistent) {elements : List Component}
    (hlen : elements.length = a.len)
    (hvariant : ∀ c ∈ elements, c.kind.variant = a.prototype.kind.variant) :
    Consistent { a with elements, cachedSize := none } :=
  { h with
    value_eq := by rw [h.value_eq, ← hlen]; rfl
    len_le := Nat.le_trans (Nat.le_of_eq hlen) h.len_le
    variant_eq := hvariant
    cachedSize_eq := by
      intro n hn
      cases hn }

end ArrayOf

theorem GroupOf.Consistent.forget {g : Group} (h : g.Consistent) : g.forget.Consistent :=
  { h with
    cachedSize_eq := by
      intro n hn
      cases hn }

namespace Kind

/-- Every node of the tree is in step, those inside prototypes and absent fields included. -/
inductive WellFormed : Kind → Prop
  | scalar {v : Scalar} : v.WellFormed → WellFormed (.scalar v)
  | array {a : ArrayField} : a.Consistent → WellFormed a.prototype.kind →
      (∀ c ∈ a.elements, WellFormed c.kind) → WellFormed (.array a)
  | group {g : Group} : g.Consistent → (∀ c ∈ g.required, WellFormed c.kind) →
      (∀ c ∈ g.optional, WellFormed c.kind) → WellFormed (.group g)

/-! ### Measuring -/

theorem measureAll_eq (n : Nat) (done cs : List Component) :
    measureAll n done cs = (n + (cs.map fun c => c.kind.measure.1).sum,
      done.reverse ++ cs.map fun c => c.withKind c.kind.measure.2) := by
  induction cs generalizing n done with
  | nil => simp [measureAll]
  | cons c cs ih => simp [measureAll, ih, Nat.add_assoc]

@[simp] theorem length_measurePresent (marks : List Bool) (cs : List Component) :
    (measurePresent marks cs).2.length = cs.length := by
  induction cs generalizing marks with
  | nil => cases marks <;> rfl
  | cons c cs ih =>
      cases marks with
      | nil => rfl
      | cons present marks => cases present <;> simp [measurePresent, ih]

theorem measurePresent_fst {marks : List Bool} {cs : List Component}
    (h : ∀ c ∈ cs, c.kind.measure.1 = c.kind.size) :
    (measurePresent marks cs).1 = sizePresent marks cs := by
  induction cs generalizing marks with
  | nil => cases marks <;> rfl
  | cons c cs ih =>
      obtain ⟨hc, hcs⟩ := List.forall_mem_cons.1 h
      cases marks with
      | nil => rfl
      | cons present marks => cases present <;> simp [measurePresent, sizePresent, ih hcs, hc]

theorem sizePresent_measurePresent {marks : List Bool} {cs : List Component}
    (h : ∀ c ∈ cs, c.kind.measure.2.size = c.kind.size) :
    sizePresent marks (measurePresent marks cs).2 = sizePresent marks cs := by
  induction cs generalizing marks with
  | nil => cases marks <;> rfl
  | cons c cs ih =>
      obtain ⟨hc, hcs⟩ := List.forall_mem_cons.1 h
      cases marks with
      | nil => rfl
      | cons present marks =>
          cases present <;> simp [measurePresent, sizePresent, ih hcs, hc, Named.withKind]

/-- What holds of fields, measured or not, holds of them after the present ones are measured. -/
theorem forall_measurePresent {P : Kind → Prop} {marks : List Bool} {cs : List Component}
    (h : ∀ c ∈ cs, P c.kind ∧ P c.kind.measure.2) :
    ∀ c ∈ (measurePresent marks cs).2, P c.kind := by
  induction cs generalizing marks with
  | nil => cases marks <;> simp [measurePresent]
  | cons c cs ih =>
      obtain ⟨hc, hcs⟩ := List.forall_mem_cons.1 h
      cases marks with
      | nil =>
          intro c hc
          exact (h c hc).1
      | cons present marks =>
          have hrest : ∀ c ∈ (measurePresent marks cs).2, P c.kind := ih hcs
          cases present with
          | false => simpa [measurePresent] using ⟨hc.1, hrest⟩
          | true => simpa [measurePresent, Named.withKind] using ⟨hc.2, hrest⟩

theorem sizeAll_map (f : Kind → Kind) {cs : List Component}
    (h : ∀ c ∈ cs, (f c.kind).size = c.kind.size) :
    sizeAll (cs.map fun c => c.withKind (f c.kind)) = sizeAll cs := by
  rw [sizeAll_eq, sizeAll_eq, List.map_map]
  exact congrArg List.sum (List.map_congr_left fun c hc => h c hc)

/-- Measuring does not change the size. -/
@[simp] theorem size_measure (k : Kind) : k.measure.2.size = k.size := by
  induction k using Kind.induction with
  | scalar v => simp [measure, size]
  | array a _ ih =>
      cases hc : a.cachedSize with
      | some n => simp [measure, hc]
      | none =>
          simp only [measure, hc, measureAll_eq, List.reverse_nil, List.nil_append, size,
            sizeAll_map (fun k => k.measure.2) ih]
          rfl
  | group g ihr iho =>
      cases hc : g.cachedSize with
      | some n => simp [measure, hc]
      | none =>
          simp only [measure, hc, measureAll_eq, List.reverse_nil, List.nil_append, size,
            sizeAll_map (fun k => k.measure.2) ihr, sizePresent_measurePresent iho]

variable {k : Kind}

/-- The size by what is remembered is the size, and what measuring remembers is right. -/
theorem WellFormed.measure_spec (h : k.WellFormed) :
    k.measure.1 = k.size ∧ k.measure.2.WellFormed := by
  induction h with
  | scalar hv => exact ⟨hv.measure_fst, .scalar hv.measure⟩
  | @array a hcons hproto hwf ihproto ih =>
      cases hc : a.cachedSize with
      | some n =>
          simp only [measure, hc]
          exact ⟨hcons.cachedSize_eq n hc, .array hcons hproto hwf⟩
      | none =>
          have hsize := size_measure (.array a)
          have htotal : a.countField.width + (a.elements.map fun c => c.kind.measure.1).sum =
              (Kind.array a).size := by
            rw [size, sizeAll_eq, hcons.countField_wellFormed.width_eq]
            exact congrArg (_ + List.sum ·) (List.map_congr_left fun c hc => (ih c hc).1)
          simp only [measure, hc, measureAll_eq, List.reverse_nil, List.nil_append,
            Nat.zero_add, htotal] at hsize ⊢
          refine ⟨trivial, .array ?_ hproto ?_⟩
          · exact {
              lower_eq := hcons.lower_eq
              upper_eq := hcons.upper_eq
              countField_wellFormed := hcons.countField_wellFormed.remember
              value_eq := hcons.value_eq.trans (by simp [ArrayOf.len])
              len_le := by simpa [ArrayOf.len] using hcons.len_le
              variant_eq := by simpa [Named.withKind] using hcons.variant_eq
              cachedSize_eq := by
                intro n hn
                rw [hsize, ← Option.some.inj hn] }
          · have hmeasured : ∀ c ∈ a.elements, c.kind.measure.2.WellFormed := by
              intro c hc
              exact (ih c hc).2
            simpa [Named.withKind] using hmeasured
  | @group g hcons hreq hopt ihreq ihopt =>
      cases hc : g.cachedSize with
      | some n =>
          simp only [measure, hc]
          exact ⟨hcons.cachedSize_eq n hc, .group hcons hreq hopt⟩
      | none =>
          have hsize := size_measure (.group g)
          have htotal : (g.required.map fun c => c.kind.measure.1).sum + g.indicator.len +
              (measurePresent g.indicator.toList g.optional).1 = (Kind.group g).size := by
            rw [size, sizeAll_eq, measurePresent_fst fun c hc => (ihopt c hc).1]
            exact congrArg (List.sum · + _ + _) (List.map_congr_left fun c hc => (ihreq c hc).1)
          simp only [measure, hc, measureAll_eq, List.reverse_nil, List.nil_append,
            Nat.zero_add, htotal] at hsize ⊢
          refine ⟨trivial, .group ?_ ?_ ?_⟩
          · exact {
              indicator_wellFormed := hcons.indicator_wellFormed
              len_indicator := by simpa using hcons.len_indicator
              cachedSize_eq := by
                intro n hn
                rw [hsize, ← Option.some.inj hn] }
          · have hmeasured : ∀ c ∈ g.required, c.kind.measure.2.WellFormed := by
              intro c hc
              exact (ihreq c hc).2
            simpa [Named.withKind] using hmeasured
          · -- of the optional fields only those that are present are measured
            refine forall_measurePresent ?_
            intro c hc
            exact ⟨hopt c hc, (ihopt c hc).2⟩

theorem WellFormed.measure_fst (h : k.WellFormed) : k.measure.1 = k.size := h.measure_spec.1

theorem WellFormed.measure (h : k.WellFormed) : k.measure.2.WellFormed := h.measure_spec.2

theorem WellFormed.consistent_array {a : ArrayField} (h : (Kind.array a).WellFormed) :
    a.Consistent := by
  cases h with
  | array hcons _ _ => exact hcons

theorem WellFormed.consistent_group {g : Group} (h : (Kind.group g).WellFormed) :
    g.Consistent := by
  cases h with
  | group hcons _ _ => exact hcons

theorem WellFormed.variant_eq {a : ArrayField} (h : (Kind.array a).WellFormed) :
    ∀ c ∈ a.elements, c.kind.variant = a.prototype.kind.variant := h.consistent_array.variant_eq

theorem WellFormed.arrayForget {a : ArrayField} (h : (Kind.array a).WellFormed) :
    (Kind.array a.forget).WellFormed := by
  cases h with
  | array hcons hproto hwf => exact .array hcons.forget hproto hwf

theorem WellFormed.groupForget {g : Group} (h : (Kind.group g).WellFormed) :
    (Kind.group g.forget).WellFormed := by
  cases h with
  | group hcons hreq hopt => exact .group hcons.forget hreq hopt

/-- Well-formed elements of the right variant, and not too many, may take the place of the old
ones. -/
theorem WellFormed.withElements {a : ArrayField} (h : (Kind.array a).WellFormed)
    {elements : List Component} (hlen : elements.length ≤ a.maxCount)
    (hvariant : ∀ c ∈ elements, c.kind.variant = a.prototype.kind.variant)
    (hwf : ∀ c ∈ elements, c.kind.WellFormed) :
    (Kind.array (a.withElements elements)).WellFormed := by
  cases h with
  | array hcons hproto _ => exact .array (hcons.withElements hlen hvariant) hproto hwf

/-- Elements may also be exchanged one for one, which leaves the count field as it is. -/
theorem WellFormed.exchange {a : ArrayField} (h : (Kind.array a).WellFormed)
    {elements : List Component} (hlen : elements.length = a.len)
    (hvariant : ∀ c ∈ elements, c.kind.variant = a.prototype.kind.variant)
    (hwf : ∀ c ∈ elements, c.kind.WellFormed) :
    (Kind.array { a with elements, cachedSize := none }).WellFormed := by
  cases h with
  | array hcons hproto _ => exact .array (hcons.exchange hlen hvariant) hproto hwf

/-- A group is well-formed if its fields are, there is a mark for every optional one, and no size
is remembered. -/
theorem WellFormed.ofFields {g : Group} (hreq : ∀ c ∈ g.required, c.kind.WellFormed)
    (hopt : ∀ c ∈ g.optional, c.kind.WellFormed) (hind : g.indicator.WellFormed)
    (hlen : g.indicator.len = g.optional.length) (hcache : g.cachedSize = none) :
    (Kind.group g).WellFormed := by
  refine .group ⟨hind, hlen, ?_⟩ hreq hopt
  intro n hn
  rw [hcache] at hn
  cases hn

/-! ### Clearing -/

theorem WellFormed.clear (h : k.WellFormed) : k.clear.WellFormed := by
  induction h with
  | scalar hv => exact .scalar hv.clear
  | array hcons hproto hwf _ _ =>
      exact (WellFormed.array hcons hproto hwf).withElements (Nat.zero_le _)
        (List.forall_mem_nil _) (List.forall_mem_nil _)
  | group hcons _ _ ihreq ihopt =>
      refine .ofFields ?_ ?_ hcons.indicator_wellFormed.clear ?_ rfl
      · simpa [clearAll_eq, Named.withKind] using ihreq
      · simpa [clearAll_eq, Named.withKind] using ihopt
      · simpa [clearAll_eq] using hcons.len_indicator

/-! ### Reading -/

/-- However a read of fields ends, the first has been read, and the others were read or left. -/
theorem readAll_cons_fields (c : Component) (cs : List Component) (s : BitStream) :
    ∃ cs', (readAll (c :: cs) s).2.1 = c.withKind (c.kind.read s).2.1 :: cs' ∧
      (cs' = cs ∨ ∃ s₁, cs' = (readAll cs s₁).2.1) := by
  rw [readAll]
  rcases c.kind.read s with ⟨_ | n, kind, s₁⟩
  · exact ⟨cs, rfl, .inl rfl⟩
  · refine ⟨(readAll cs s₁).2.1, ?_, .inr ⟨s₁, rfl⟩⟩
    simp only
    rcases readAll cs s₁ with ⟨_ | m, cs', s₂⟩ <;> rfl

theorem readPresent_cons_fields (present : Bool) (marks : List Bool) (c : Component)
    (cs : List Component) (s : BitStream) :
    ∃ cs', (readPresent (present :: marks) (c :: cs) s).2.1 =
        (if present then c.withKind (c.kind.read s).2.1 else c) :: cs' ∧
      (cs' = cs ∨ ∃ s₁, cs' = (readPresent marks cs s₁).2.1) := by
  cases present with
  | false => exact ⟨_, rfl, .inr ⟨s, rfl⟩⟩
  | true =>
      rw [readPresent, if_pos rfl, if_pos rfl]
      rcases c.kind.read s with ⟨_ | n, kind, s₁⟩
      · exact ⟨cs, rfl, .inl rfl⟩
      · refine ⟨(readPresent marks cs s₁).2.1, ?_, .inr ⟨s₁, rfl⟩⟩
        simp only
        rcases readPresent marks cs s₁ with ⟨_ | m, cs', s₂⟩ <;> rfl

theorem forall_readAll {P : Kind → Prop} {cs : List Component}
    (h : ∀ c ∈ cs, P c.kind ∧ ∀ s, P (c.kind.read s).2.1) (s : BitStream) :
    ∀ c ∈ (readAll cs s).2.1, P c.kind := by
  induction cs generalizing s with
  | nil => exact List.forall_mem_nil _
  | cons c cs ih =>
      obtain ⟨hc, hcs⟩ := List.forall_mem_cons.1 h
      obtain ⟨cs', heq, rfl | ⟨s₁, rfl⟩⟩ := readAll_cons_fields c cs s <;> rw [heq]
      · exact List.forall_mem_cons.2 ⟨hc.2 s, fun c hc => (hcs c hc).1⟩
      · exact List.forall_mem_cons.2 ⟨hc.2 s, ih hcs s₁⟩

theorem forall_readPresent {P : Kind → Prop} {cs : List Component}
    (h : ∀ c ∈ cs, P c.kind ∧ ∀ s, P (c.kind.read s).2.1) (marks : List Bool) (s : BitStream) :
    ∀ c ∈ (readPresent marks cs s).2.1, P c.kind := by
  induction cs generalizing marks s with
  | nil => cases marks <;> exact List.forall_mem_nil _
  | cons c cs ih =>
      obtain ⟨hc, hcs⟩ := List.forall_mem_cons.1 h
      rcases marks with _ | ⟨present, marks⟩
      · intro c hc
        exact (h c hc).1
      · have hhead : P (if present then c.withKind (c.kind.read s).2.1 else c).kind := by
          split
          · exact hc.2 s
          · exact hc.1
        obtain ⟨cs', heq, rfl | ⟨s₁, rfl⟩⟩ := readPresent_cons_fields present marks c cs s <;>
          rw [heq]
        · exact List.forall_mem_cons.2 ⟨hhead, fun c hc => (hcs c hc).1⟩
        · exact List.forall_mem_cons.2 ⟨hhead, ih hcs marks s₁⟩

@[simp] theorem length_readPresent (marks : List Bool) (cs : List Component) (s : BitStream) :
    (readPresent marks cs s).2.1.length = cs.length := by
  induction cs generalizing marks s with
  | nil => cases marks <;> rfl
  | cons c cs ih =>
      rcases marks with _ | ⟨present, marks⟩
      · rfl
      · obtain ⟨cs', heq, rfl | ⟨s₁, rfl⟩⟩ := readPresent_cons_fields present marks c cs s <;>
          rw [heq]
        · rfl
        · exact congrArg (· + 1) (ih marks s₁)

end Kind

/-- What holds of every copy that is read holds of all of them, and they are as many as asked
for. -/
theorem ArrayOf.forall_of_readCopies {α : Type} {P : α → Prop}
    {readCopy : BitStream → Outcome (α × BitStream) Nat}
    (hP : ∀ {s m c s'}, readCopy s = (.ok m, c, s') → P c) {count n m : Nat} {done cs : List α}
    {s s' : BitStream} (hdone : ∀ c ∈ done, P c)
    (h : readCopies readCopy count n done s = (.ok (m, cs), s')) :
    cs.length = done.length + count ∧ ∀ c ∈ cs, P c := by
  induction count generalizing n done s with
  | zero =>
      cases h
      simpa using hdone
  | succ count ih =>
      rw [readCopies] at h
      rcases hr : readCopy s with ⟨_ | l, c, s₁⟩ <;> simp only [hr] at h
      · cases h
      · obtain ⟨hlen, hcs⟩ := ih (List.forall_mem_cons.2 ⟨hP hr, hdone⟩) h
        rw [List.length_cons] at hlen
        exact ⟨by omega, hcs⟩

namespace Kind

/-- Reads one copy of a prototype. -/
def readCopy {β : Type} [BitSource β] (prototype : Component) (s : β) :
    Outcome (Component × β) Nat :=
  match prototype.kind.read s with
  | (r, kind, s) => (r, prototype.withKind kind, s)

theorem read_array {β : Type} [BitSource β] (a : ArrayField) (s : β) : (array a).read s =
    match a.readCount s with
    | (.error e, s) => (.error e, array a, s)
    | (.ok count, s) =>
      if a.admits count then
        match ArrayOf.readCopies (readCopy a.prototype) count a.countField.width [] s with
        | (.error e, s) => (.error e, array a, s)
        | (.ok (n, elements), s) => (.ok n, array (a.withElements elements), s)
      else (.error (a.countOutOfRange count), array a, s) := rfl

/-- What holds of whatever is read into a prototype holds of its copies. -/
theorem of_readCopy {P : Kind → Prop} {prototype : Component}
    (h : ∀ s, P (prototype.kind.read s).2.1) {s s' : BitStream} {m : Nat} {c : Component}
    (hr : readCopy prototype s = (.ok m, c, s')) : P c.kind := by
  have hc : prototype.withKind (prototype.kind.read s).2.1 = c := congrArg (fun r => r.2.1) hr
  rw [← hc]
  exact h s

/-- A component stays well-formed when it is read, also when that fails. -/
theorem WellFormed.read {k : Kind} (h : k.WellFormed) (s : BitStream) :
    (k.read s).2.1.WellFormed := by
  induction h generalizing s with
  | scalar hv =>
      rw [Kind.read]
      exact .scalar (hv.read s)
  | @array a hcons hproto hwf ihproto _ =>
      have hold : (Kind.array a).WellFormed := .array hcons hproto hwf
      rw [read_array]
      rcases a.readCount s with ⟨_ | count, s₁⟩
      · exact hold
      · simp only
        split
        · rename_i hadm
          split
          · exact hold
          · rename_i hcopies
            have hmax := (ArrayOf.admits_iff.1 hadm).2
            -- what is read into a copy of the prototype is well-formed and of its variant
            obtain ⟨hlen, hnew⟩ := ArrayOf.forall_of_readCopies
              (P := fun c : Component =>
                c.kind.WellFormed ∧ c.kind.variant = a.prototype.kind.variant)
              (of_readCopy (P := fun k => k.WellFormed ∧ k.variant = a.prototype.kind.variant)
                fun s => ⟨ihproto s, variant_read _ s⟩)
              (List.forall_mem_nil _) hcopies
            rw [List.length_nil, Nat.zero_add] at hlen
            refine hold.withElements (by rw [hlen]; exact hmax) ?_ ?_
            · intro c hc
              exact (hnew c hc).2
            · intro c hc
              exact (hnew c hc).1
        · exact hold
  | @group g hcons hreq hopt ihreq ihopt =>
      have hind := hcons.indicator_wellFormed
      have hlen := hcons.len_indicator
      have hreq' := forall_readAll (fun c hc => ⟨hreq c hc, ihreq c hc⟩) s
      rw [Kind.read]
      simp only [GroupOf.forget]
      -- a read that fails stops after the required fields, after the marks, or in the optional ones
      rcases hra : readAll g.required s with ⟨_ | n, required, s₁⟩ <;> rw [hra] at hreq'
      · exact .ofFields hreq' hopt hind hlen rfl
      · have hind' := hind.read s₁
        have hlen' := g.indicator.len_read s₁
        simp only
        rcases hi : g.indicator.read s₁ with ⟨_ | m, indicator, s₂⟩ <;> rw [hi] at hind' hlen'
        · exact .ofFields hreq' hopt hind' (hlen'.trans hlen) rfl
        · have hopt' := forall_readPresent (fun c hc => ⟨hopt c hc, ihopt c hc⟩)
            indicator.toList s₂
          have hlenopt := length_readPresent indicator.toList g.optional s₂
          simp only
          rcases hp : readPresent indicator.toList g.optional s₂ with ⟨_ | l, optional, s₃⟩ <;>
            rw [hp] at hopt' hlenopt
          · exact .ofFields hreq' hopt' hind' ((hlen'.trans hlen).trans hlenopt.symm) rfl
          · exact .ofFields hreq' hopt' hind' ((hlen'.trans hlen).trans hlenopt.symm) rfl

end Kind

end WireTree
