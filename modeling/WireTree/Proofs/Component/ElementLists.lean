/-
**Lists of elements.**

An array keeps its elements as components of any variant, with a count field beside them that is
written in their place, and checks the variant whenever a component comes in or is handed out.  What
it means is simpler: a list whose members are all of one variant, and a bound on their number.  This
module defines such lists, typed by the variant so that there is nothing to check, and what the
calls do to them.

What is settled when an array is made is a template: what a new element is a copy of, and how many
elements there may be.

Main definitions:

* `WireTree.ElementCall`, `WireTree.ElementAnswer` — the calls that change an array, and the
  answers;
* `WireTree.Template` — what is settled when an array is made;
* `WireTree.Template.perform`, `WireTree.ArrayOf.perform` — the calls on lists and on arrays.

Main results:

* `WireTree.Template.perform_of_failed` — a call that fails leaves the list as it was;
* `WireTree.Template.visit_all` — all elements are handed out, in order.
-/

import WireTree.Component.Edit
import WireTree.Proofs.BoundedInt

set_option relaxedAutoImplicit false
set_option autoImplicit false

namespace WireTree

variable {ρ : Type}

/-! ### The calls -/

/-- The calls that change an array. -/
inductive ElementCall (ρ : Type) where
  /-- Append a copy of the prototype, taken to be of a variant, and change it. -/
  | push (w : Variant) (f : w.Content → ρ × w.Content)
  /-- Append a component. -/
  | pushComponent (c : Component)
  /-- Take the last element off. -/
  | pop
  /-- Change the element of an index, taken to be of a variant. -/
  | modify (w : Variant) (i : Nat) (f : w.Content → ρ × w.Content)
  /-- Change all elements in turn, taken to be of a variant, carrying a state along. -/
  | modifyAll (w : Variant) (f : ρ → w.Content → ρ × w.Content) (r : ρ)
  /-- Take all elements off. -/
  | clear
  /-- Read the array. -/
  | read (s : BitStream)

/-- The answers of calls that go through. -/
inductive ElementAnswer (ρ : Type) where
  /-- Nothing to tell. -/
  | done
  /-- The element that has been taken off, if there was one. -/
  | popped (c : Option Component)
  /-- What the change of an element, or of all, has answered. -/
  | changed (r : ρ)
  /-- The number of bits taken, or why reading has failed, and the stream that is left. -/
  | taken (result : Except WireError Nat) (rest : BitStream)

namespace ElementAnswer

variable {σ : Type}

/-- The answer to a call that goes through and has nothing to tell, or leaves what was there. -/
def ofUpdate (s : σ) : Except WireError σ → Outcome σ (ElementAnswer ρ)
  | .error e => (.error e, s)
  | .ok s => (.ok .done, s)

/-- The answer to a call that changes elements. -/
def ofChange : Outcome σ ρ → Outcome σ (ElementAnswer ρ)
  | (.error e, s) => (.error e, s)
  | (.ok r, s) => (.ok (.changed r), s)

/-- A call has failed, or the read that it asked for. -/
def Failed : Except WireError (ElementAnswer ρ) → Prop
  | .error _ | .ok (.taken (.error _) _) => True
  | _ => False

theorem ofChange_of_failed {o : Outcome σ ρ} {s : σ} (ho : ∀ {e}, o.1 = .error e → o.2 = s)
    (h : Failed (ofChange o).1) : (ofChange o).2 = s := by
  rcases o with ⟨e | r, s'⟩
  · exact ho rfl
  · exact h.elim

end ElementAnswer

/-! ### Templates -/

/-- What is settled when an array of components of a variant is made. -/
structure Template (v : Variant) where
  /-- What a new element is a copy of. -/
  prototype : Named v.Content
  /-- The fewest elements that can be written. -/
  minCount : Nat
  /-- The most elements. -/
  maxCount : Nat

/-- Typed contents with a name, as a component. -/
def component {v : Variant} (c : Named v.Content) : Component := ⟨c.name, Kind.ofContent v c.kind⟩

@[simp] theorem kind_component {v : Variant} (c : Named v.Content) :
    (component c).kind = .ofContent v c.kind := rfl

@[simp] theorem withKind_component {v : Variant} (c : Named v.Content) (content : v.Content) :
    (component c).withKind (.ofContent v content) = component (c.withKind content) := rfl

namespace Template

/-- The template of the arrays with a prototype and bounds. -/
def of (prototype : Component) (minCount maxCount : Nat) : Template prototype.kind.variant :=
  ⟨⟨prototype.name, prototype.kind.content⟩, minCount, maxCount⟩

@[simp] theorem component_prototype_of (prototype : Component) (minCount maxCount : Nat) :
    component (of prototype minCount maxCount).prototype = prototype := by
  simp [component, of]

variable {v : Variant} (t : Template v)

/-! ### What the calls do to a list -/

/-- The failure of a number of elements out of bounds. -/
def countOutOfRange (count : Nat) : WireError := .countOutOfRange count t.minCount t.maxCount

/-- Appends an element, unless the list is full. -/
def append (es : List (Named v.Content)) (c : Named v.Content) :
    Except WireError (List (Named v.Content)) :=
  if es.length = t.maxCount then .error (t.countOutOfRange (es.length + 1)) else .ok (es ++ [c])

/-- Appends a component, which must be of the variant of the list. -/
def pushComponent (es : List (Named v.Content)) (c : Component) :
    Except WireError (List (Named v.Content)) :=
  match c.kind.downcast v with
  | .error e => .error e
  | .ok content => t.append es ⟨c.name, content⟩

/-- Appends a copy of the prototype and changes it; it is taken to be of the variant `w`. -/
def push (es : List (Named v.Content)) (w : Variant) (f : w.Content → ρ × w.Content) :
    Outcome (List (Named v.Content)) ρ :=
  if h : w = v then
    match (h ▸ f : v.Content → ρ × v.Content) t.prototype.kind with
    | (r, content) =>
      match t.append es (t.prototype.withKind content) with
      | .error e => (.error e, es)
      | .ok es => (.ok r, es)
  else (.error (w.mismatch v), es)

/-- Changes the element of an index; it is taken to be of the variant `w`.  The index is checked
first. -/
def modify (es : List (Named v.Content)) (w : Variant) (i : Nat) (f : w.Content → ρ × w.Content) :
    Outcome (List (Named v.Content)) ρ :=
  match es[i]? with
  | none => (.error (.elementIndex i es.length), es)
  | some c =>
    if h : w = v then
      match (h ▸ f : v.Content → ρ × v.Content) c.kind with
      | (r, content) => (.ok r, es.set i (c.withKind content))
    else (.error (w.mismatch v), es)

/-- Changes all elements one after the other, carrying a state along. -/
def visit (f : ρ → v.Content → ρ × v.Content) : ρ → List (Named v.Content) →
    ρ × List (Named v.Content)
  | r, [] => (r, [])
  | r, c :: es =>
    match f r c.kind with
    | (r, content) =>
      match visit f r es with
      | (r, es) => (r, c.withKind content :: es)

/-- Changes all elements one after the other; they are taken to be of the variant `w`. -/
def modifyAll (es : List (Named v.Content)) (w : Variant) (f : ρ → w.Content → ρ × w.Content)
    (r : ρ) : Outcome (List (Named v.Content)) ρ :=
  if h : w = v then
    match visit (h ▸ f : ρ → v.Content → ρ × v.Content) r es with
    | (r, es) => (.ok r, es)
  else (.error (w.mismatch v), es)

/-- The width of the number of elements. -/
def width : Nat := bitsForSpan (Int32.ofNat t.minCount) (Int32.ofNat t.maxCount)

/-- The number of elements that a word announces: the fewest, and the word beyond them.  Past the
largest integer it would be negative, and counts as zero. -/
def announced (word : UInt32) : Nat :=
  if t.minCount + word.toNat < 2 ^ 31 then t.minCount + word.toNat else 0

/-- Reads copies of the prototype, one after the other. -/
def readCopies : (count : Nat) → BitStream → Outcome BitStream (Nat × List (Named v.Content))
  | 0, s => (.ok (0, []), s)
  | count + 1, s =>
    match Edit.read s v t.prototype.kind with
    | ((.error e, s), _) => (.error e, s)
    | ((.ok n, s), content) =>
      match readCopies count s with
      | (.error e, s) => (.error e, s)
      | (.ok (m, es), s) => (.ok (n + m, t.prototype.withKind content :: es), s)

/-- Reads the number of elements, which must be within the bounds, and then the elements. -/
def read (es : List (Named v.Content)) (s : BitStream) :
    Outcome (List (Named v.Content) × BitStream) Nat :=
  match s.readBits t.width with
  | (.error e, s) => (.error e, es, s)
  | (.ok word, s) =>
    if t.minCount ≤ t.announced word ∧ t.announced word ≤ t.maxCount then
      match t.readCopies (t.announced word) s with
      | (.error e, s) => (.error e, es, s)
      | (.ok (n, es), s) => (.ok (t.width + n), es, s)
    else (.error (t.countOutOfRange (t.announced word)), es, s)

/-- Carries out a call. -/
def perform (es : List (Named v.Content)) :
    ElementCall ρ → Outcome (List (Named v.Content)) (ElementAnswer ρ)
  | .push w f => ElementAnswer.ofChange (t.push es w f)
  | .pushComponent c => ElementAnswer.ofUpdate es (t.pushComponent es c)
  | .pop => (.ok (.popped (es.getLast?.map component)), es.dropLast)
  | .modify w i f => ElementAnswer.ofChange (modify es w i f)
  | .modifyAll w f r => ElementAnswer.ofChange (modifyAll es w f r)
  | .clear => (.ok .done, [])
  | .read s =>
    match t.read es s with
    | (r, es, s) => (.ok (.taken r s), es)

/-! ### Calls that fail -/

variable {t} {es : List (Named v.Content)} {e : WireError}

theorem push_of_error {w : Variant} {f : w.Content → ρ × w.Content}
    (h : (t.push es w f).1 = .error e) : (t.push es w f).2 = es := by
  unfold push at h ⊢
  split at h
  · rename_i hw
    rw [dif_pos hw]
    simp only at h ⊢
    split at h
    · rfl
    · cases h
  · rename_i hw
    rw [dif_neg hw]

theorem modify_of_error {w : Variant} {i : Nat} {f : w.Content → ρ × w.Content}
    (h : (modify es w i f).1 = .error e) : (modify es w i f).2 = es := by
  unfold modify at h ⊢
  rcases hi : es[i]? with _ | c
  · rfl
  · rw [hi] at h
    simp only at h ⊢
    split at h
    · cases h
    · rename_i hw
      rw [dif_neg hw]

theorem modifyAll_of_error {w : Variant} {f : ρ → w.Content → ρ × w.Content} {r : ρ}
    (h : (modifyAll es w f r).1 = .error e) : (modifyAll es w f r).2 = es := by
  unfold modifyAll at h ⊢
  split at h
  · cases h
  · rename_i hw
    rw [dif_neg hw]

theorem read_of_error {s : BitStream} (h : (t.read es s).1 = .error e) :
    (t.read es s).2.1 = es := by
  unfold read at h ⊢
  rcases hword : s.readBits t.width with ⟨_ | word, s₁⟩
  · rfl
  · simp only [hword] at h ⊢
    split at h
    · rename_i hbounds
      rw [if_pos hbounds]
      rcases hcopies : t.readCopies (t.announced word) s₁ with ⟨_ | ⟨n, es'⟩, s₂⟩
      · rfl
      · rw [hcopies] at h
        cases h
    · rename_i hbounds
      rw [if_neg hbounds]

/-- A call that fails leaves the list as it was. -/
theorem perform_of_failed {call : ElementCall ρ} (h : ElementAnswer.Failed (t.perform es call).1) :
    (t.perform es call).2 = es := by
  cases call with
  | push w f => exact ElementAnswer.ofChange_of_failed push_of_error h
  | pushComponent c =>
      simp only [perform] at h ⊢
      rcases hpush : t.pushComponent es c with e | es' <;> rw [hpush] at h
      · rfl
      · exact h.elim
  | pop => exact h.elim
  | modify w i f => exact ElementAnswer.ofChange_of_failed modify_of_error h
  | modifyAll w f r => exact ElementAnswer.ofChange_of_failed modifyAll_of_error h
  | clear => exact h.elim
  | read s =>
      simp only [perform] at h ⊢
      rcases hread : t.read es s with ⟨e | n, es', s'⟩ <;> rw [hread] at h
      · have hes := read_of_error (congrArg Prod.fst hread)
        rwa [hread] at hes
      · exact h.elim

/-! ### All elements -/

/-- All elements are handed out, in order and none left out: what is handed out, one after the
other, is the list. -/
theorem visit_all (es : List (Named v.Content)) (seen : List v.Content) :
    visit (fun seen content => (seen ++ [content], content)) seen es =
      (seen ++ es.map Named.kind, es) := by
  induction es generalizing seen with
  | nil => simp [visit]
  | cons c es ih => simp [visit, ih, Named.withKind]

/-! ### Lengths -/

theorem length_visit (f : ρ → v.Content → ρ × v.Content) (r : ρ) (es : List (Named v.Content)) :
    (visit f r es).2.length = es.length := by
  induction es generalizing r with
  | nil => rfl
  | cons c es ih => simp [visit, ih]

theorem length_readCopies {count n : Nat} {s s' : BitStream}
    (h : t.readCopies count s = (.ok (n, es), s')) : es.length = count := by
  induction count generalizing n es s with
  | zero =>
      cases h
      rfl
  | succ count ih =>
      rw [readCopies] at h
      rcases hread : Edit.read s v t.prototype.kind with ⟨⟨_ | m, s₁⟩, content⟩ <;> rw [hread] at h
      · cases h
      · simp only at h
        rcases hrest : t.readCopies count s₁ with ⟨_ | ⟨l, rest⟩, s₂⟩ <;> rw [hrest] at h <;>
          cases h
        rw [List.length_cons, ih hrest]

end Template

namespace ArrayOf

/-- Carries out a call. -/
def perform (a : ArrayField) : ElementCall ρ → Outcome ArrayField (ElementAnswer ρ)
  | .push w f => ElementAnswer.ofChange (a.push w f)
  | .pushComponent c => ElementAnswer.ofUpdate a (a.pushComponent c)
  | .pop => (.ok (.popped a.pop.1), a.pop.2)
  | .modify w i f => ElementAnswer.ofChange (a.modifyAs w i f)
  | .modifyAll w f r => ElementAnswer.ofChange (a.modifyAll w f r)
  | .clear => (.ok .done, (Edit.clear .array a).2)
  | .read s =>
    match Edit.read s .array a with
    | ((r, s), a) => (.ok (.taken r s), a)

end ArrayOf

end WireTree
