/-
**Lists of fields.**

A group keeps its optional fields, their presence marks and the table of names apart, and finds a
field through its place in the table.  What it means is much simpler: a list of required fields and
a list of optional ones, each with its mark, in which a field is found by its name.  This module
defines these lists and what the calls do to them, without places, tables and packed marks, and
tells where a name stands in the lists after each of the changes.

Main definitions:

* `WireTree.FieldLists`, `WireTree.OptionalField` — required fields, and optional ones with marks;
* `WireTree.FieldCall`, `WireTree.FieldAnswer` — the calls that change a group, and the answers;
* `WireTree.FieldLists.perform`, `WireTree.GroupOf.perform` — the calls on lists and on groups;
* `WireTree.FieldLists.nameAt?` — the name at a place.

Main results:

* `WireTree.FieldLists.nameAt?_append_required`, `WireTree.FieldLists.nameAt?_eraseIdx_required` and
  their companions for optional fields — places after a field has come or gone;
* `WireTree.GroupOf.lookup_slotsAfterRemoval` — the table after a removal;
* `WireTree.readPresent_map` — reading fields by marks is reading fields with marks.
-/

import WireTree.Component.Edit
import WireTree.Proofs.Component.WellFormed

set_option relaxedAutoImplicit false
set_option autoImplicit false

namespace WireTree

variable {ρ : Type}

/-! ### The calls -/

/-- The calls that change a group. -/
inductive FieldCall (ρ : Type) where
  /-- Add a field at the end of its list. -/
  | add (c : Component) (optional : Bool)
  /-- Take the field of a name out. -/
  | remove (name : String)
  /-- Mark the optional field of a name present or absent. -/
  | setPresent (name : String) (present : Bool)
  /-- Change what the field of a name holds, maybe to a component of another variant. -/
  | modify (name : String) (f : Kind → ρ × Kind)
  /-- Change what the field of a name holds, as contents of a variant. -/
  | modifyAs (v : Variant) (name : String) (f : v.Content → ρ × v.Content)
  /-- Mark the optional field of a name present and change what it holds. -/
  | enable (v : Variant) (name : String) (f : v.Content → ρ × v.Content)
  /-- Clear all fields and mark the optional ones absent. -/
  | clear
  /-- Read the group. -/
  | read (s : BitStream)

/-- The answers of calls that go through. -/
inductive FieldAnswer (ρ : Type) where
  /-- Nothing to tell. -/
  | done
  /-- The field that has been taken out. -/
  | removed (c : Component)
  /-- What the change of a field has answered. -/
  | changed (r : ρ)
  /-- The number of bits taken, or why reading has failed, and the stream that is left. -/
  | taken (result : Except WireError Nat) (rest : BitStream)

namespace FieldAnswer

variable {σ : Type}

/-- The answer to a call that goes through and has nothing to tell, or leaves what was there. -/
def ofUpdate (s : σ) : Except WireError σ → Outcome σ (FieldAnswer ρ)
  | .error e => (.error e, s)
  | .ok s => (.ok .done, s)

/-- The answer to a call that takes a field out, or leaves what was there. -/
def ofRemoval (s : σ) : Except WireError (Component × σ) → Outcome σ (FieldAnswer ρ)
  | .error e => (.error e, s)
  | .ok (c, s) => (.ok (.removed c), s)

/-- The answer to a call that changes a field. -/
def ofChange : Outcome σ ρ → Outcome σ (FieldAnswer ρ)
  | (.error e, s) => (.error e, s)
  | (.ok r, s) => (.ok (.changed r), s)

end FieldAnswer

/-! ### Lists of fields -/

/-- An optional field. -/
structure OptionalField where
  /-- Its name. -/
  name : String
  /-- What it holds. -/
  kind : Kind
  /-- Whether it is present. -/
  present : Bool

/-- The field without its mark. -/
def OptionalField.component (o : OptionalField) : Component := ⟨some o.name, o.kind⟩

/-- Required fields, of which some have names, and optional fields. -/
structure FieldLists where
  /-- The required fields, in order. -/
  required : List Component
  /-- The optional fields, in order. -/
  optional : List OptionalField

namespace FieldLists

/-- No fields. -/
def empty : FieldLists := ⟨[], []⟩

/-- All fields, the required ones first. -/
def fields (f : FieldLists) : List Component :=
  f.required ++ f.optional.map OptionalField.component

/-- The names of all fields. -/
def names (f : FieldLists) : List String := f.fields.filterMap Named.name

/-- The field of a name. -/
def field (f : FieldLists) (name : String) : Except WireError Component :=
  match f.fields.find? fun c => c.name == some name with
  | some c => .ok c
  | none => .error (.unknownField name)

/-- Whether the field of a name is present; a required field always is. -/
def isPresent (f : FieldLists) (name : String) : Except WireError Bool :=
  if f.required.any fun c => c.name == some name then .ok true
  else
    match f.optional.find? fun o => o.name == name with
    | some o => .ok o.present
    | none => .error (.unknownField name)

/-- The lists with a field more.  An optional field must have a name and begins absent, and no two
fields have the same name. -/
def add (f : FieldLists) (c : Component) (optional : Bool) : Except WireError FieldLists :=
  match c.name with
  | none =>
    if optional then .error .unnamedOptional else .ok { f with required := f.required ++ [c] }
  | some name =>
    if name ∈ f.names then .error (.duplicateField name)
    else if optional then .ok { f with optional := f.optional ++ [⟨name, c.kind, false⟩] }
    else .ok { f with required := f.required ++ [c] }

/-- The lists without the field of a name. -/
def without (f : FieldLists) (name : String) : FieldLists where
  required := f.required.filter fun c => c.name != some name
  optional := f.optional.filter fun o => o.name != name

/-- The field of a name, and the lists without it. -/
def remove (f : FieldLists) (name : String) : Except WireError (Component × FieldLists) :=
  match f.field name with
  | .error e => .error e
  | .ok c => .ok (c, f.without name)

/-- The lists with another mark for the optional field of a name. -/
def withMark (f : FieldLists) (name : String) (present : Bool) : FieldLists :=
  { f with optional := f.optional.map fun o => if o.name = name then { o with present } else o }

/-- Marks the optional field of a name present or absent. -/
def setPresent (f : FieldLists) (name : String) (present : Bool) : Except WireError FieldLists :=
  if f.required.any fun c => c.name == some name then .error (.fieldNotOptional name)
  else if f.optional.any fun o => o.name == name then .ok (f.withMark name present)
  else .error (.unknownField name)

/-- The lists with other contents of the field of a name. -/
def withKind (f : FieldLists) (name : String) (kind : Kind) : FieldLists where
  required := f.required.map fun c => if c.name = some name then c.withKind kind else c
  optional := f.optional.map fun o => if o.name = name then { o with kind } else o

/-- Changes what the field of a name holds. -/
def modify (f : FieldLists) (name : String) (φ : Kind → ρ × Kind) : Outcome FieldLists ρ :=
  match f.field name with
  | .error e => (.error e, f)
  | .ok c =>
    match φ c.kind with
    | (r, kind) => (.ok r, f.withKind name kind)

/-- Changes what the field of a name holds, as contents of a variant. -/
def modifyAs (f : FieldLists) (v : Variant) (name : String) (φ : v.Content → ρ × v.Content) :
    Outcome FieldLists ρ :=
  match f.field name with
  | .error e => (.error e, f)
  | .ok c =>
    match c.kind.downcast v with
    | .error e => (.error e, f)
    | .ok content =>
      match φ content with
      | (r, content) => (.ok r, f.withKind name (Kind.ofContent v content))

/-- Marks the optional field of a name present and changes what it holds.  A field of another
variant is refused, and so is a required field. -/
def enable (f : FieldLists) (v : Variant) (name : String) (φ : v.Content → ρ × v.Content) :
    Outcome FieldLists ρ :=
  match f.field name with
  | .error e => (.error e, f)
  | .ok c =>
    match c.kind.downcast v with
    | .error e => (.error e, f)
    | .ok _ =>
      match f.setPresent name true with
      | .error e => (.error e, f)
      | .ok f => f.modifyAs v name φ

/-- All fields cleared and no optional field present. -/
def clear (f : FieldLists) : FieldLists where
  required := f.required.map fun c => c.withKind c.kind.clear
  optional := f.optional.map fun o => { o with kind := o.kind.clear, present := false }

/-- The optional fields with other marks. -/
def withMarks (f : FieldLists) (marks : List Bool) : List OptionalField :=
  List.zipWith (fun o present => { o with present }) f.optional marks

/-- Reads the optional fields that are present, up to the first failure. -/
def readOptional : List OptionalField → BitStream → Outcome (List OptionalField × BitStream) Nat
  | [], s => (.ok 0, [], s)
  | o :: os, s =>
    if o.present then
      match o.kind.read s with
      | (.error e, kind, s) => (.error e, { o with kind } :: os, s)
      | (.ok n, kind, s) =>
        match readOptional os s with
        | (.error e, os, s) => (.error e, { o with kind } :: os, s)
        | (.ok m, os, s) => (.ok (n + m), { o with kind } :: os, s)
    else
      match readOptional os s with
      | (r, os, s) => (r, o :: os, s)

/-- Reads the required fields, then the marks of the optional ones, then those that are present by
the marks just read. -/
def read (f : FieldLists) (s : BitStream) : Outcome (FieldLists × BitStream) Nat :=
  match Kind.readAll f.required s with
  | (.error e, required, s) => (.error e, { f with required }, s)
  | (.ok n, required, s) =>
    match (BitSet.ofList (f.optional.map OptionalField.present)).read s with
    | (.error e, _, s) => (.error e, { f with required }, s)
    | (.ok m, marks, s) =>
      match readOptional (f.withMarks marks.toList) s with
      | (.error e, optional, s) => (.error e, ⟨required, optional⟩, s)
      | (.ok l, optional, s) => (.ok (n + m + l), ⟨required, optional⟩, s)

/-- Carries out a call. -/
def perform (f : FieldLists) : FieldCall ρ → Outcome FieldLists (FieldAnswer ρ)
  | .add c optional => FieldAnswer.ofUpdate f (f.add c optional)
  | .remove name => FieldAnswer.ofRemoval f (f.remove name)
  | .setPresent name present => FieldAnswer.ofUpdate f (f.setPresent name present)
  | .modify name φ => FieldAnswer.ofChange (f.modify name φ)
  | .modifyAs v name φ => FieldAnswer.ofChange (f.modifyAs v name φ)
  | .enable v name φ => FieldAnswer.ofChange (f.enable v name φ)
  | .clear => (.ok .done, f.clear)
  | .read s =>
    match f.read s with
    | (r, f, s) => (.ok (.taken r s), f)

end FieldLists

namespace GroupOf

/-- Carries out a call. -/
def perform (g : Group) : FieldCall ρ → Outcome Group (FieldAnswer ρ)
  | .add c optional => FieldAnswer.ofUpdate g (g.addField c optional)
  | .remove name => FieldAnswer.ofRemoval g (g.removeField name)
  | .setPresent name present => FieldAnswer.ofUpdate g (g.setPresent name present)
  | .modify name φ => FieldAnswer.ofChange (g.modifyField name φ)
  | .modifyAs v name φ => FieldAnswer.ofChange (g.modifyAs v name φ)
  | .enable v name φ => FieldAnswer.ofChange (g.enable v name φ)
  | .clear => (.ok .done, (Edit.clear .group g).2)
  | .read s =>
    match Edit.read s .group g with
    | ((r, s), g) => (.ok (.taken r s), g)

end GroupOf

/-! ### Places after a removal -/

namespace Slot

/-- The place that a field had before the one at `gone` left. -/
def beforeRemoval (gone : Slot) : Slot → Slot
  | required i =>
    match gone with
    | required j => required (if i < j then i else i + 1)
    | optional _ => required i
  | optional i =>
    match gone with
    | optional j => optional (if i < j then i else i + 1)
    | required _ => optional i

theorem beforeRemoval_ne (gone slot : Slot) : gone.beforeRemoval slot ≠ gone := by
  cases slot <;> cases gone <;> simp [beforeRemoval] <;> split <;> omega

theorem afterRemoval_eq_iff {gone slot slot' : Slot} (h : slot ≠ gone) :
    gone.afterRemoval slot = slot' ↔ slot = gone.beforeRemoval slot' := by
  cases slot <;> cases gone <;> cases slot' <;> simp [afterRemoval, beforeRemoval] at h ⊢ <;>
    split <;> split <;> omega

end Slot

/-! ### Lists with one member of a kind -/

section OneMember

variable {α : Type} {l : List α} {i : Nat}

/-- If a single member is not selected, selecting leaves that one out. -/
theorem filter_eq_eraseIdx {p : α → Bool} (h : ∀ j x, l[j]? = some x → (p x = false ↔ j = i)) :
    l.filter p = l.eraseIdx i := by
  induction l generalizing i with
  | nil => rfl
  | cons x l ih =>
      have hx := h 0 x rfl
      cases i with
      | zero =>
          have hrest : ∀ y ∈ l, p y = true := by
            intro y hy
            obtain ⟨j, hj⟩ := List.mem_iff_getElem?.1 hy
            have hy' := h (j + 1) y hj
            simpa using hy'
          rw [List.eraseIdx_cons_zero, List.filter_cons, hx.2 rfl, if_neg (by simp)]
          exact List.filter_eq_self.2 hrest
      | succ i =>
          have hkeep : p x = true := by simpa using hx
          rw [List.eraseIdx_cons_succ, List.filter_cons_of_pos hkeep]
          refine congrArg (x :: ·) (ih ?_)
          intro j y hj
          have hy := h (j + 1) y hj
          rwa [Nat.add_right_cancel_iff] at hy

/-- If a single member is concerned, changing what is concerned changes that one. -/
theorem map_ite_eq_set {P : α → Prop} [DecidablePred P] {φ : α → α} {c : α}
    (hc : l[i]? = some c) (h : ∀ j x, l[j]? = some x → (P x ↔ j = i)) :
    (l.map fun x => if P x then φ x else x) = l.set i (φ c) := by
  refine List.ext_getElem? ?_
  intro j
  obtain ⟨hi, -⟩ := List.getElem?_eq_some_iff.1 hc
  rw [List.getElem?_map, List.getElem?_set]
  by_cases hij : i = j
  · subst hij
    rw [if_pos rfl, if_pos hi, hc, Option.map_some, if_pos ((h i c hc).2 rfl)]
  · rw [if_neg hij]
    cases hj : l[j]? with
    | none => rfl
    | some x => rw [Option.map_some, if_neg (mt (h j x hj).1 (Ne.symm hij))]

theorem map_ite_eq_self {P : α → Prop} [DecidablePred P] {φ : α → α} (h : ∀ x ∈ l, ¬ P x) :
    (l.map fun x => if P x then φ x else x) = l := by
  refine (List.map_congr_left ?_).trans (List.map_id l)
  intro x hx
  rw [if_neg (h x hx)]
  rfl

/-- What a change keeps is the same for all members after some have been changed. -/
theorem map_map_ite {β : Type} {P : α → Prop} [DecidablePred P] {φ : α → α} {ψ : α → β}
    (h : ∀ x, ψ (φ x) = ψ x) (l : List α) :
    (l.map fun x => if P x then φ x else x).map ψ = l.map ψ := by
  rw [List.map_map]
  refine List.map_congr_left ?_
  intro x _
  rw [Function.comp_apply]
  split
  · exact h x
  · rfl

end OneMember

/-! ### Places and names -/

namespace FieldLists

variable {f : FieldLists}

/-- The field at a place, if there is one. -/
def fieldAt? (f : FieldLists) : Slot → Option Component
  | .required i => f.required[i]?
  | .optional i => f.optional[i]?.map OptionalField.component

/-- The name of the field at a place, if there is one and it has a name. -/
def nameAt? (f : FieldLists) (slot : Slot) : Option String := (f.fieldAt? slot).bind Named.name

theorem nameAt?_required (f : FieldLists) (i : Nat) :
    f.nameAt? (.required i) = f.required[i]?.bind Named.name := rfl

theorem nameAt?_optional (f : FieldLists) (i : Nat) :
    f.nameAt? (.optional i) = f.optional[i]?.map OptionalField.name := by
  rw [nameAt?, fieldAt?]
  cases f.optional[i]? <;> rfl

theorem nameAt?_eq_some_iff {slot : Slot} {name : String} :
    f.nameAt? slot = some name ↔ ∃ c, f.fieldAt? slot = some c ∧ c.name = some name :=
  Option.bind_eq_some_iff

theorem mem_fields_iff {c : Component} : c ∈ f.fields ↔ ∃ slot, f.fieldAt? slot = some c := by
  rw [fields, List.mem_append, List.mem_iff_getElem?, List.mem_iff_getElem?]
  simp only [List.getElem?_map]
  constructor
  · rintro (⟨i, hi⟩ | ⟨i, hi⟩)
    · exact ⟨.required i, hi⟩
    · exact ⟨.optional i, hi⟩
  · rintro ⟨i | i, hi⟩
    · exact .inl ⟨i, hi⟩
    · exact .inr ⟨i, hi⟩

theorem mem_names_iff {name : String} : name ∈ f.names ↔ ∃ slot, f.nameAt? slot = some name := by
  simp only [names, List.mem_filterMap, mem_fields_iff, nameAt?_eq_some_iff]
  constructor
  · rintro ⟨c, ⟨slot, hslot⟩, hname⟩
    exact ⟨slot, c, hslot, hname⟩
  · rintro ⟨slot, c, hslot, hname⟩
    exact ⟨c, ⟨slot, hslot⟩, hname⟩

/-- A required field more has the next place. -/
theorem nameAt?_append_required (f : FieldLists) (c : Component) (slot : Slot) :
    nameAt? { f with required := f.required ++ [c] } slot =
      if slot = .required f.required.length then c.name else f.nameAt? slot := by
  cases slot with
  | required i =>
      rw [nameAt?_required, nameAt?_required]
      by_cases hi : i = f.required.length
      · simp [hi]
      · rw [if_neg (by simpa using hi)]
        simp only [List.getElem?_append, List.getElem?_singleton]
        split
        · rfl
        · rw [if_neg (by omega), List.getElem?_eq_none (by omega)]
  | optional i => rfl

/-- An optional field more has the next place. -/
theorem nameAt?_append_optional (f : FieldLists) (o : OptionalField) (slot : Slot) :
    nameAt? { f with optional := f.optional ++ [o] } slot =
      if slot = .optional f.optional.length then some o.name else f.nameAt? slot := by
  cases slot with
  | required i => rfl
  | optional i =>
      rw [nameAt?_optional, nameAt?_optional]
      by_cases hi : i = f.optional.length
      · simp [hi]
      · rw [if_neg (by simpa using hi)]
        simp only [List.getElem?_append, List.getElem?_singleton]
        split
        · rfl
        · rw [if_neg (by omega), List.getElem?_eq_none (by omega)]

theorem nameAt?_eraseIdx_required (f : FieldLists) (i : Nat) (slot : Slot) :
    nameAt? { f with required := f.required.eraseIdx i } slot =
      f.nameAt? ((Slot.required i).beforeRemoval slot) := by
  cases slot with
  | required j =>
      simp only [Slot.beforeRemoval, nameAt?_required, List.getElem?_eraseIdx]
      split <;> rfl
  | optional j => rfl

theorem nameAt?_eraseIdx_optional (f : FieldLists) (i : Nat) (slot : Slot) :
    nameAt? { f with optional := f.optional.eraseIdx i } slot =
      f.nameAt? ((Slot.optional i).beforeRemoval slot) := by
  cases slot with
  | required j => rfl
  | optional j =>
      simp only [Slot.beforeRemoval, nameAt?_optional, List.getElem?_eraseIdx]
      split <;> rfl

/-- Lists with the same names in the same order have them at the same places. -/
theorem nameAt?_congr {f' : FieldLists}
    (hreq : f'.required.map Named.name = f.required.map Named.name)
    (hopt : f'.optional.map OptionalField.name = f.optional.map OptionalField.name) :
    f'.nameAt? = f.nameAt? := by
  funext slot
  cases slot with
  | required i =>
      have hi := congrArg (fun names => names[i]?.bind id) hreq
      simpa [nameAt?_required, Option.bind_map] using hi
  | optional i =>
      have hi := congrArg (fun names => names[i]?) hopt
      simpa [nameAt?_optional] using hi

theorem components_withMark (f : FieldLists) (name : String) (present : Bool) :
    (f.withMark name present).optional.map OptionalField.component =
      f.optional.map OptionalField.component := by
  refine map_map_ite ?_ f.optional
  intro o
  rfl

theorem nameAt?_withMark (f : FieldLists) (name : String) (present : Bool) :
    (f.withMark name present).nameAt? = f.nameAt? := by
  refine nameAt?_congr rfl (map_map_ite ?_ f.optional)
  intro o
  rfl

theorem marks_withKind (f : FieldLists) (name : String) (kind : Kind) :
    (f.withKind name kind).optional.map OptionalField.present =
      f.optional.map OptionalField.present := by
  refine map_map_ite ?_ f.optional
  intro o
  rfl

theorem nameAt?_withKind (f : FieldLists) (name : String) (kind : Kind) :
    (f.withKind name kind).nameAt? = f.nameAt? := by
  refine nameAt?_congr (map_map_ite ?_ f.required) (map_map_ite ?_ f.optional)
  · intro c
    rfl
  · intro o
    rfl

theorem nameAt?_clear (f : FieldLists) : f.clear.nameAt? = f.nameAt? := by
  refine nameAt?_congr ?_ ?_ <;> rw [clear, List.map_map] <;> rfl

end FieldLists

theorem GroupOf.lookup_slotsAfterRemoval (g : Group) (name : String) (gone : Slot) (n : String) :
    (g.slotsAfterRemoval name gone).lookup n =
      if n = name then none else (g.slot? n).map gone.afterRemoval := by
  rw [slotsAfterRemoval, slot?]
  induction g.slots with
  | nil => simp
  | cons entry slots ih =>
      obtain ⟨key, slot⟩ := entry
      by_cases hkey : key = name
      · subst hkey
        rw [List.filter_cons_of_neg (by simp), ih]
        by_cases hn : n = key
        · rw [if_pos hn, if_pos hn]
        · rw [if_neg hn, if_neg hn, List.lookup_cons, beq_eq_false_iff_ne.2 hn]
      · rw [List.filter_cons_of_pos (by simpa using hkey), List.map_cons, List.lookup_cons,
          List.lookup_cons, ih]
        by_cases hn : n = key
        · subst hn
          simp [hkey]
        · simp [beq_eq_false_iff_ne.2 hn]

/-! ### Reading fields -/

theorem names_readAll (cs : List Component) (s : BitStream) :
    (Kind.readAll cs s).2.1.map Named.name = cs.map Named.name := by
  induction cs generalizing s with
  | nil => rfl
  | cons c cs ih =>
      obtain ⟨cs', heq, rfl | ⟨s₁, rfl⟩⟩ := Kind.readAll_cons_fields c cs s <;> rw [heq]
      · rfl
      · exact congrArg (c.name :: ·) (ih s₁)

theorem BitSet.eq_of_read_error {b b' : BitSet} {s s' : BitStream} {e : WireError}
    (h : b.read s = (.error e, b', s')) : b' = b := by
  rw [BitSet.read, BitSource.readWords_stream] at h
  rcases hr : s.readWords b.widths with ⟨_ | words, s₁⟩ <;> simp only [hr] at h <;> cases h
  rfl

/-- Reading the present fields by their marks is reading the present ones of a list of fields with
marks. -/
theorem readPresent_map (os : List OptionalField) (s : BitStream) :
    Kind.readPresent (os.map OptionalField.present) (os.map OptionalField.component) s =
      match FieldLists.readOptional os s with
      | (r, os, s) => (r, os.map OptionalField.component, s) := by
  induction os generalizing s with
  | nil => rfl
  | cons o os ih =>
      rw [List.map_cons, List.map_cons, Kind.readPresent, FieldLists.readOptional]
      cases o.present with
      | false =>
          rw [if_neg Bool.false_ne_true, if_neg Bool.false_ne_true, ih]
          rfl
      | true =>
          rw [if_pos rfl, if_pos rfl, OptionalField.component]
          rcases o.kind.read s with ⟨_ | n, kind, s₁⟩
          · rfl
          · simp only [ih]
            rcases FieldLists.readOptional os s₁ with ⟨_ | m, os', s₂⟩ <;> rfl

/-- Reading keeps names and marks. -/
theorem FieldLists.map_readOptional {α : Type} {φ : OptionalField → α}
    (hφ : ∀ o kind, φ { o with kind } = φ o) (os : List OptionalField) (s : BitStream) :
    (readOptional os s).2.1.map φ = os.map φ := by
  induction os generalizing s with
  | nil => rfl
  | cons o os ih =>
      rw [readOptional]
      split
      · rcases o.kind.read s with ⟨_ | n, kind, s₁⟩
        · simp [hφ]
        · have hrest := ih s₁
          rcases hr : readOptional os s₁ with ⟨_ | m, os', s₂⟩ <;> rw [hr] at hrest <;>
            simp [hr, hφ, hrest]
      · simp [ih]

namespace FieldLists

theorem map_withMarks {α : Type} {φ : OptionalField → α}
    (hφ : ∀ o present, φ { o with present } = φ o) (f : FieldLists) {marks : List Bool}
    (h : marks.length = f.optional.length) : (f.withMarks marks).map φ = f.optional.map φ := by
  refine List.ext_getElem (by simp [withMarks, h]) ?_
  intro i _ _
  simp [withMarks, hφ]

theorem marks_withMarks (f : FieldLists) {marks : List Bool}
    (h : marks.length = f.optional.length) :
    (f.withMarks marks).map OptionalField.present = marks := by
  refine List.ext_getElem (by simp [withMarks, h]) ?_
  intro i _ _
  simp [withMarks]

end FieldLists

end WireTree
