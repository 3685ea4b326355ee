/-
**An array is a list of elements.**

An array and a list of typed elements give the same answers through every run of calls, whether the
calls go through or fail, and what can be seen of the array is in the list.

The relation `ArrayOf.Holds` carries the proof: the prototype and the bounds are those of the
template, the elements are those of the list, and the count field is in step.  The list is typed, so
what the array checks at every call is said once: all elements are of the variant of the prototype.

Main definitions:

* `WireTree.ArrayOf.Holds` — an array of a template holds the elements of a list;
* `WireTree.ArrayOf.Shows` — what can be seen of it.

Main results:

* `WireTree.ArrayOf.Holds.perform` — one call;
* `WireTree.array_refines_list` — **whole runs**.
-/

import WireTree.Proofs.Calls
import WireTree.Proofs.Component.ElementLists
import WireTree.Proofs.Component.Encoding

set_option relaxedAutoImplicit false
set_option autoImplicit false

namespace WireTree

variable {ρ : Type} {v : Variant}

/-! ### Components of a known variant -/

theorem Kind.downcast_ofContent_of_ne {w : Variant} (h : w ≠ v) (content : v.Content) :
    (Kind.ofContent v content).downcast w = .error (w.mismatch v) := by
  rw [Kind.downcast_of_ne (by rwa [Kind.variant_ofContent, ne_comm]), Kind.variant_ofContent]

/-- A component of a variant is typed contents with a name. -/
theorem exists_component {c : Component} (h : c.kind.variant = v) :
    ∃ content : v.Content, c = component ⟨c.name, content⟩ := by
  subst h
  exact ⟨c.kind.content, by simp [component]⟩

namespace ArrayOf

/-! ### An array and its elements -/

variable {a : ArrayField} {t : Template v} {es : List (Named v.Content)}

/-- The prototype and the bounds are those of the template, the elements are those of the list, and
all parts of the array but the size that is remembered are in step. -/
structure Holds (a : ArrayField) (t : Template v) (es : List (Named v.Content)) : Prop where
  /-- The prototype. -/
  prototype_eq : a.prototype = component t.prototype
  /-- The fewest elements. -/
  minCount_eq : a.minCount = t.minCount
  /-- The most elements. -/
  maxCount_eq : a.maxCount = t.maxCount
  /-- The elements. -/
  elements_eq : a.elements = es.map component
  /-- The count field is in step, and there are not too many elements. -/
  consistent : a.forget.Consistent

namespace Holds

theorem len_eq (h : a.Holds t es) : a.len = es.length := by
  rw [len, h.elements_eq, List.length_map]

theorem length_le (h : a.Holds t es) : es.length ≤ t.maxCount := by
  rw [← h.len_eq, ← h.maxCount_eq]
  exact h.consistent.len_le

theorem variant_prototype (h : a.Holds t es) : a.prototype.kind.variant = v := by
  rw [h.prototype_eq, component, Kind.variant_ofContent]

theorem variant_eq (es : List (Named v.Content)) :
    ∀ c ∈ es.map component, c.kind.variant = v := by
  intro c hc
  obtain ⟨e, -, rfl⟩ := List.mem_map.1 hc
  exact Kind.variant_ofContent v e.kind

theorem forget (h : a.Holds t es) : a.forget.Holds t es := { h with }

/-- Not too many elements of another list may take the place of those of the list. -/
theorem withElements (h : a.Holds t es) (es' : List (Named v.Content))
    (hlen : es'.length ≤ t.maxCount) :
    (a.withElements (es'.map component)).Holds t es' where
  prototype_eq := h.prototype_eq
  minCount_eq := h.minCount_eq
  maxCount_eq := h.maxCount_eq
  elements_eq := rfl
  consistent := by
    refine h.consistent.withElements ?_ ?_
    · rw [List.length_map]
      exact Nat.le_trans hlen (Nat.le_of_eq h.maxCount_eq.symm)
    · intro c hc
      exact (variant_eq es' c hc).trans h.variant_prototype.symm

/-- Elements may also be exchanged one for one, which leaves the count field as it is. -/
theorem exchange (h : a.Holds t es) (es' : List (Named v.Content))
    (hlen : es'.length = es.length) :
    Holds { a with elements := es'.map component, cachedSize := none } t es' := by
  refine { h with elements_eq := rfl, consistent := h.consistent.exchange ?_ ?_ }
  · rw [List.length_map, hlen]
    exact h.len_eq.symm
  · intro c hc
    exact (variant_eq es' c hc).trans h.variant_prototype.symm

/-! ### The ends of the list -/

theorem append (h : a.Holds t es) (c : Named v.Content) :
    Alike (fun a es => a.Holds t es) (a.pushComponent (component c)) (t.append es c) := by
  rw [pushComponent, if_neg (by rw [h.variant_prototype, component, Kind.variant_ofContent]; simp),
    Template.append, h.len_eq, h.maxCount_eq]
  have hlen := h.length_le
  by_cases hfull : es.length = t.maxCount
  · rw [if_pos (Nat.le_of_eq hfull.symm), if_pos hfull, countOutOfRange, Template.countOutOfRange,
      h.minCount_eq, h.maxCount_eq]
    exact .error _
  · rw [if_neg (by omega), if_neg hfull, h.elements_eq]
    have hroom : (es ++ [c]).length ≤ t.maxCount := by
      rw [List.length_append, List.length_singleton]
      omega
    have hnew := h.withElements (es ++ [c]) hroom
    rw [List.map_append] at hnew
    exact .ok hnew

theorem pushComponent (h : a.Holds t es) (c : Component) :
    Alike (fun a es => a.Holds t es) (a.pushComponent c) (t.pushComponent es c) := by
  rw [Template.pushComponent]
  by_cases hv : c.kind.variant = v
  · obtain ⟨content, hc⟩ := exists_component hv
    have hcast : c.kind.downcast v = .ok content := by
      rw [hc]
      exact Kind.downcast_ofContent v content
    rw [hcast]
    have happend := h.append ⟨c.name, content⟩
    rwa [← hc] at happend
  · rw [Kind.downcast_of_ne hv, ArrayOf.pushComponent, if_pos (by rwa [h.variant_prototype]),
      h.variant_prototype]
    exact .error _

theorem push (h : a.Holds t es) (w : Variant) (f : w.Content → ρ × w.Content) :
    (a.push w f).1 = (t.push es w f).1 ∧ (a.push w f).2.Holds t (t.push es w f).2 := by
  rw [ArrayOf.push, Template.push, h.prototype_eq, kind_component]
  by_cases hw : w = v
  · subst hw
    rw [Kind.downcast_ofContent, dif_pos rfl]
    simp only [withKind_component]
    have happend := h.append (t.prototype.withKind (f t.prototype.kind).2)
    generalize a.pushComponent (component _) = pushed at happend ⊢
    generalize t.append es _ = appended at happend ⊢
    cases happend with
    | ok hnew => exact ⟨rfl, hnew⟩
    | error e => exact ⟨rfl, h⟩
  · rw [Kind.downcast_ofContent_of_ne hw, dif_neg hw]
    exact ⟨rfl, h⟩

theorem pop (h : a.Holds t es) :
    a.pop.1 = es.getLast?.map component ∧ a.pop.2.Holds t es.dropLast := by
  have hlen := h.length_le
  have hnew := h.withElements es.dropLast (by rw [List.length_dropLast]; omega)
  rw [ArrayOf.pop, h.elements_eq]
  rw [List.map_dropLast] at hnew
  exact ⟨List.getLast?_map, hnew⟩

theorem clear (h : a.Holds t es) : (Edit.clear .array a).2.Holds t [] :=
  h.withElements [] (Nat.zero_le _)

/-! ### Elements in place -/

theorem modify (h : a.Holds t es) (w : Variant) (i : Nat) (f : w.Content → ρ × w.Content) :
    (a.modifyAs w i f).1 = (Template.modify es w i f).1 ∧
      (a.modifyAs w i f).2.Holds t (Template.modify es w i f).2 := by
  rw [modifyAs, Template.modify, h.elements_eq, List.getElem?_map]
  rcases es[i]? with _ | c
  · rw [h.len_eq]
    exact ⟨rfl, h⟩
  · simp only [Option.map_some, component]
    by_cases hw : w = v
    · subst hw
      rw [Kind.downcast_ofContent, dif_pos rfl]
      have hnew := h.exchange (es.set i (c.withKind (f c.kind).2)) (List.length_set ..)
      rw [List.map_set] at hnew
      exact ⟨rfl, hnew⟩
    · rw [Kind.downcast_ofContent_of_ne hw, dif_neg hw]
      exact ⟨rfl, h.forget⟩

/-- No element is passed over. -/
theorem modifyEach_map (f : ρ → v.Content → ρ × v.Content) (r : ρ) (es : List (Named v.Content)) :
    modifyEach v f r (es.map component) =
      ((Template.visit f r es).1, (Template.visit f r es).2.map component) := by
  induction es generalizing r with
  | nil => rfl
  | cons c es ih =>
      rw [List.map_cons, modifyEach, component, Kind.downcast_ofContent]
      simp only [ih, Template.visit]
      rfl

theorem modifyAll (h : a.Holds t es) (w : Variant) (f : ρ → w.Content → ρ × w.Content) (r : ρ) :
    (a.modifyAll w f r).1 = (Template.modifyAll es w f r).1 ∧
      (a.modifyAll w f r).2.Holds t (Template.modifyAll es w f r).2 := by
  rw [ArrayOf.modifyAll, Template.modifyAll, congrArg Named.kind h.prototype_eq, kind_component]
  by_cases hw : w = v
  · subst hw
    rw [Kind.downcast_ofContent, dif_pos rfl, h.elements_eq, modifyEach_map]
    exact ⟨rfl, h.exchange _ (Template.length_visit f r es)⟩
  · rw [Kind.downcast_ofContent_of_ne hw, dif_neg hw]
    exact ⟨rfl, h⟩

/-! ### Reading -/

theorem width_eq (h : a.Holds t es) : a.countField.width = t.width := by
  have hwidth := h.consistent.width_eq
  rw [ArrayOf.forget, h.minCount_eq, h.maxCount_eq] at hwidth
  exact hwidth

/-- The number of elements is the one that the word announces. -/
theorem announced_eq (h : a.Holds t es) {word : UInt32} (hword : word.toNat < 2 ^ t.width) :
    (a.countField.ofOffset word).value.toInt.toNat = t.announced word := by
  rw [← h.width_eq] at hword
  refine (h.consistent.toNat_ofOffset hword).trans ?_
  rw [ArrayOf.announced, ArrayOf.forget, h.minCount_eq]
  rfl

theorem readCount_eq (h : a.Holds t es) (s : BitStream) : a.readCount s =
    match s.readBits t.width with
    | (.error e, s) => (.error e, s)
    | (.ok word, s) => (.ok (t.announced word), s) := by
  rw [readCount, BitSource.readBits_stream, h.width_eq]
  rcases hword : s.readBits t.width with ⟨_ | word, s₁⟩
  · rfl
  · simp only [h.announced_eq (BitStream.toNat_lt_of_readBits hword)]

theorem admits_eq (h : a.Holds t es) (count : Nat) :
    a.admits count = true ↔ t.minCount ≤ count ∧ count ≤ t.maxCount := by
  rw [admits_iff, h.minCount_eq, h.maxCount_eq]

theorem readCopies_component (t : Template v) (count n : Nat) (done : List Component)
    (s : BitStream) : ArrayOf.readCopies (Kind.readCopy (component t.prototype)) count n done s =
      match t.readCopies count s with
      | (.error e, s) => (.error e, s)
      | (.ok (m, es), s) => (.ok (n + m, done.reverse ++ es.map component), s) := by
  induction count generalizing n done s with
  | zero => simp [ArrayOf.readCopies, Template.readCopies]
  | succ count ih =>
      rw [ArrayOf.readCopies, Template.readCopies, Kind.readCopy, component, Edit.read_ofContent]
      rcases Edit.read s v t.prototype.kind with ⟨⟨_ | m, s₁⟩, content⟩
      · rfl
      · simp only
        rw [← component, ih]
        rcases t.readCopies count s₁ with ⟨_ | ⟨l, es⟩, s₂⟩
        · rfl
        · simp [Nat.add_assoc, component, Named.withKind]

theorem read_array (h : a.Holds t es) (s : BitStream) :
    ∃ a', (Kind.array a).read s = ((t.read es s).1, .array a', (t.read es s).2.2) ∧
      a'.Holds t (t.read es s).2.1 := by
  rw [Kind.read_array, h.readCount_eq, Template.read]
  rcases s.readBits t.width with ⟨_ | word, s₁⟩
  · exact ⟨a, rfl, h⟩
  · simp only [h.admits_eq]
    by_cases hbounds : t.minCount ≤ t.announced word ∧ t.announced word ≤ t.maxCount
    · rw [if_pos hbounds, if_pos hbounds, h.prototype_eq, readCopies_component, h.width_eq]
      rcases hcopies : t.readCopies (t.announced word) s₁ with ⟨_ | ⟨n, es'⟩, s₂⟩
      · exact ⟨a, rfl, h⟩
      · refine ⟨_, rfl, h.withElements es' ?_⟩
        rw [Template.length_readCopies hcopies]
        exact hbounds.2
    · rw [if_neg hbounds, if_neg hbounds, countOutOfRange, h.minCount_eq, h.maxCount_eq]
      exact ⟨a, rfl, h⟩

theorem read (h : a.Holds t es) (s : BitStream) :
    (Edit.read s .array a).1 = ((t.read es s).1, (t.read es s).2.2) ∧
      (Edit.read s .array a).2.Holds t (t.read es s).2.1 := by
  obtain ⟨a', hread, hholds⟩ := h.read_array s
  rw [Edit.read_eq (v := .array) hread]
  exact ⟨rfl, hholds⟩

/-! ### One call -/

theorem ofUpdate (h : a.Holds t es) {r : Except WireError ArrayField}
    {r' : Except WireError (List (Named v.Content))}
    (hr : Alike (fun a es => a.Holds t es) r r') :
    (@ElementAnswer.ofUpdate ρ _ a r).1 = (@ElementAnswer.ofUpdate ρ _ es r').1 ∧
      (@ElementAnswer.ofUpdate ρ _ a r).2.Holds t (@ElementAnswer.ofUpdate ρ _ es r').2 := by
  cases hr with
  | ok hholds => exact ⟨rfl, hholds⟩
  | error e => exact ⟨rfl, h⟩

theorem ofChange {o : Outcome ArrayField ρ} {o' : Outcome (List (Named v.Content)) ρ}
    (ho : o.1 = o'.1 ∧ o.2.Holds t o'.2) :
    (ElementAnswer.ofChange o).1 = (ElementAnswer.ofChange o').1 ∧
      (ElementAnswer.ofChange o).2.Holds t (ElementAnswer.ofChange o').2 := by
  obtain ⟨r, a⟩ := o
  obtain ⟨r', es⟩ := o'
  obtain ⟨hanswer, hholds⟩ := ho
  cases hanswer
  cases r <;> exact ⟨rfl, hholds⟩

/-- An array and its list answer a call alike, and what the call leaves are an array and its
list. -/
theorem perform (h : a.Holds t es) (call : ElementCall ρ) :
    (a.perform call).1 = (t.perform es call).1 ∧
      (a.perform call).2.Holds t (t.perform es call).2 := by
  cases call with
  | push w f => exact ofChange (h.push w f)
  | pushComponent c => exact h.ofUpdate (h.pushComponent c)
  | pop =>
      obtain ⟨hlast, hholds⟩ := h.pop
      exact ⟨congrArg (fun c => Except.ok (ElementAnswer.popped c)) hlast, hholds⟩
  | modify w i f => exact ofChange (h.modify w i f)
  | modifyAll w f r => exact ofChange (h.modifyAll w f r)
  | clear => exact ⟨rfl, h.clear⟩
  | read s =>
      obtain ⟨hanswer, hholds⟩ := h.read s
      refine ⟨?_, hholds⟩
      simp only [ArrayOf.perform, Template.perform, hanswer]

/-- A call that fails leaves the elements as they were. -/
theorem perform_of_failed (h : a.Holds t es) {call : ElementCall ρ}
    (hfailed : ElementAnswer.Failed (a.perform call).1) :
    (a.perform call).2.elements = a.elements := by
  obtain ⟨hanswer, hholds⟩ := h.perform call
  rw [hanswer] at hfailed
  rw [hholds.elements_eq, h.elements_eq, Template.perform_of_failed hfailed]

end Holds

/-! ### New arrays -/

variable {prototype : Component} {minCount maxCount : Nat}

/-- An array cannot be made exactly when its bounds are inverted or the upper one is too large. -/
theorem make_eq_error_iff {e : WireError} : make prototype minCount maxCount = .error e ↔
    (maxCount < minCount ∨ maxMaxCount < maxCount) ∧ e = .invertedBounds minCount maxCount := by
  unfold make
  split
  · rename_i hbounds
    simp [hbounds, eq_comm]
  · rename_i hbounds
    rw [maxMaxCount] at hbounds
    have hle : Int32.ofNat minCount ≤ Int32.ofNat maxCount := by
      rw [Int32.le_iff_toInt_le, Int32.toInt_ofNat_of_lt (by omega),
        Int32.toInt_ofNat_of_lt (by omega)]
      omega
    simp [BoundedInt.make, hle, maxMaxCount, hbounds]

theorem Holds.make (h : make prototype minCount maxCount = .ok a) :
    a.Holds (.of prototype minCount maxCount) [] := by
  obtain ⟨hprototype, hmin, hmax, helements⟩ := eq_of_make h
  exact {
    prototype_eq := by rw [hprototype, Template.component_prototype_of]
    minCount_eq := hmin
    maxCount_eq := hmax
    elements_eq := helements
    consistent := (consistent_make h).forget }

theorem Holds.unbounded (prototype : Component) :
    (unbounded prototype).Holds (.of prototype 0 defaultArrayMaxCount) [] where
  prototype_eq := (Template.component_prototype_of ..).symm
  minCount_eq := rfl
  maxCount_eq := rfl
  elements_eq := rfl
  consistent := (consistent_unbounded prototype).forget

/-! ### Whole runs -/

/-- What can be seen of the array is in the template and in the list. -/
structure Shows (a : ArrayField) (t : Template v) (es : List (Named v.Content)) : Prop where
  /-- The bounds are in order. -/
  min_le_max : t.minCount ≤ t.maxCount
  /-- The upper bound is a 32-bit signed integer. -/
  max_lt : t.maxCount < 2 ^ 31
  /-- The prototype. -/
  prototype_eq : a.prototype = component t.prototype
  /-- The fewest elements. -/
  minCount_eq : a.minCount = t.minCount
  /-- The most elements. -/
  maxCount_eq : a.maxCount = t.maxCount
  /-- The elements, in order. -/
  elements_eq : a.elements = es.map component
  /-- The number of elements. -/
  len_eq : a.len = es.length
  /-- There are not too many elements. -/
  len_le : a.len ≤ a.maxCount
  /-- All elements are of the variant of the prototype. -/
  variant_eq : ∀ c ∈ a.elements, c.kind.variant = a.prototype.kind.variant
  /-- The count field begins at the fewest elements. -/
  lower_eq : a.countField.lower.toInt = a.minCount
  /-- The count field ends at the most elements. -/
  upper_eq : a.countField.upper.toInt = a.maxCount
  /-- The count field counts the elements. -/
  value_eq : a.countField.value.toInt = a.len
  /-- All elements are handed out, in order and none left out. -/
  visited_eq : (a.modifyAll v (fun seen content => (seen ++ [content], content)) []).1 =
    .ok (es.map Named.kind)

theorem Holds.shows (h : a.Holds t es) : a.Shows t es where
  min_le_max := by
    rw [← h.minCount_eq, ← h.maxCount_eq]
    exact h.consistent.min_le_max
  max_lt := by
    rw [← h.maxCount_eq]
    exact h.consistent.max_lt
  prototype_eq := h.prototype_eq
  minCount_eq := h.minCount_eq
  maxCount_eq := h.maxCount_eq
  elements_eq := h.elements_eq
  len_eq := h.len_eq
  len_le := h.consistent.len_le
  variant_eq := h.consistent.variant_eq
  lower_eq := h.consistent.lower_eq
  upper_eq := h.consistent.upper_eq
  value_eq := h.consistent.value_eq
  visited_eq := by
    rw [(h.modifyAll v _ _).1, Template.modifyAll, dif_pos rfl]
    simp only [Template.visit_all, List.nil_append]

end ArrayOf

/-- **An array is a list of elements.**  An array can be made unless its bounds are inverted or the
upper one is too large.  Whatever the calls are, a new array answers every one of them, the ones that
fail included, as the empty list of its variant does, and shows what is in the list; and a call that
fails leaves the elements as they were. -/
theorem array_refines_list (prototype : Component) (minCount maxCount : Nat) :
    (∀ e, ArrayOf.make prototype minCount maxCount = .error e ↔
      (maxCount < minCount ∨ 2 ^ 31 - 1 < maxCount) ∧ e = .invertedBounds minCount maxCount) ∧
    ∀ a, ArrayOf.make prototype minCount maxCount = .ok a ∨
        a = ArrayOf.unbounded prototype ∧ minCount = 0 ∧ maxCount = 65535 →
      ∀ calls : List (ElementCall ρ),
        (runCalls ArrayOf.perform a calls).1 =
          (runCalls (Template.of prototype minCount maxCount).perform [] calls).1 ∧
        (runCalls ArrayOf.perform a calls).2.Shows (.of prototype minCount maxCount)
          (runCalls (Template.of prototype minCount maxCount).perform [] calls).2 ∧
        ∀ call : ElementCall ρ,
          ElementAnswer.Failed ((runCalls ArrayOf.perform a calls).2.perform call).1 →
            ((runCalls ArrayOf.perform a calls).2.perform call).2.elements =
              (runCalls ArrayOf.perform a calls).2.elements := by
  refine ⟨fun e => ArrayOf.make_eq_error_iff, ?_⟩
  intro a hnew calls
  have hempty : a.Holds (.of prototype minCount maxCount) [] := by
    rcases hnew with hmake | ⟨rfl, rfl, rfl⟩
    · exact .make hmake
    · exact .unbounded prototype
  obtain ⟨hanswers, hholds⟩ := runCalls_simulates
    (fun a es call (h : ArrayOf.Holds a (.of prototype minCount maxCount) es) => h.perform call)
    hempty calls
  exact ⟨hanswers, hholds.shows, fun call => hholds.perform_of_failed⟩

/-- The second element fills the array: the third is refused, and a text is refused before.  A read
that ends early leaves the elements. -/
theorem array_refines_list_full : ∃ (a : ArrayField) (calls : List (ElementCall Nat)),
    ArrayOf.make ⟨none, .scalar (.u8 5)⟩ 1 2 = .ok a ∧
    (runCalls ArrayOf.perform a calls).1 =
      [.ok (.changed 5), .error (.variantMismatch "u8" "string"), .ok .done,
        .error (.countOutOfRange 3 1 2), .error (.elementIndex 2 2), .ok (.changed 16),
        .ok (.popped (some ⟨some "b", .scalar (.u8 10)⟩))] ∧
    (runCalls ArrayOf.perform a calls).2.Shows (.of ⟨none, .scalar (.u8 5)⟩ 1 2) [⟨none, (8 : UInt8)⟩] ∧
    ElementAnswer.Failed
      ((runCalls ArrayOf.perform a calls).2.perform (.read .empty : ElementCall Nat)).1 ∧
    ((runCalls ArrayOf.perform a calls).2.perform (.read .empty : ElementCall Nat)).2.elements =
      [⟨none, .scalar (.u8 8)⟩] := by
  obtain ⟨a, ha⟩ : ∃ a, ArrayOf.make ⟨none, .scalar (.u8 5)⟩ 1 2 = .ok a := ⟨_, rfl⟩
  obtain ⟨-, hruns⟩ := @array_refines_list Nat ⟨none, .scalar (.u8 5)⟩ 1 2
  obtain ⟨hanswers, hshows, hkept⟩ := hruns a (.inl ha)
    [.push .u8 fun n => (n.toNat, 7), .pushComponent ⟨none, .scalar (.text "x")⟩,
      .pushComponent ⟨some "b", .scalar (.u8 9)⟩, .push .u8 fun n => (n.toNat, n),
      .modify .text 2 fun text => (0, text),
      .modifyAll .u8 (fun sum n => (sum + n.toNat, n + 1)) 0, .pop]
  refine ⟨a, _, ha, hanswers, hshows, ?_, ?_⟩
  · cases ha
    exact trivial
  · rw [hkept]
    · exact hshows.elements_eq
    · cases ha
      exact trivial

end WireTree
