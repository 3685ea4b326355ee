/-
**A group is two lists of fields.**

A group and its lists give the same answers through every run of calls, and what can be seen of the
group is in the lists.

The relation `GroupOf.Lists` carries the proof: the fields and the marks of the group are those of
the lists, and the table leads from a name to the place of the field that carries it.  Since it
does so in both directions, a name has one place, and whatever is done to the field at that place
is done to the only field of that name.

Main definitions:

* `WireTree.GroupOf.Lists` — a group has the given lists;
* `WireTree.GroupOf.Shows` — what can be seen of it.

Main results:

* `WireTree.GroupOf.Lists.perform` — one call;
* `WireTree.GroupOf.run_eq_lists_run` — **whole runs**.
-/

import Mathlib.Data.List.InsertIdx
import WireTree.Proofs.BitSet.Bits
import WireTree.Proofs.Calls
import WireTree.Proofs.Component.FieldLists

set_option relaxedAutoImplicit false
set_option autoImplicit false

namespace WireTree

variable {ρ : Type}

/-! ### A group and its lists -/

namespace GroupOf

variable {g g' : Group} {f f' : FieldLists} {name : String} {slot : Slot} {c : Component}

/-- The fields and the marks of the group are those of the lists, and the table leads from a name
to the place of the field that carries it. -/
structure Lists (g : Group) (f : FieldLists) : Prop where
  /-- The required fields. -/
  required_eq : g.required = f.required
  /-- The optional fields. -/
  optional_eq : g.optional = f.optional.map OptionalField.component
  /-- The marks. -/
  marks_eq : g.indicator.toList = f.optional.map OptionalField.present
  /-- The marks are well-formed. -/
  indicator_wellFormed : g.indicator.WellFormed
  /-- The table of names. -/
  slot?_eq_some_iff : ∀ name slot, g.slot? name = some slot ↔ f.nameAt? slot = some name

namespace Lists

theorem len_indicator (h : g.Lists f) : g.indicator.len = f.optional.length := by
  rw [← BitSet.length_toList, h.marks_eq, List.length_map]

theorem fieldAt?_eq (h : g.Lists f) (slot : Slot) : g.fieldAt? slot = f.fieldAt? slot := by
  cases slot with
  | required i => rw [fieldAt?, h.required_eq, FieldLists.fieldAt?]
  | optional i => rw [fieldAt?, h.optional_eq, List.getElem?_map, FieldLists.fieldAt?]

/-- Only one field carries a name. -/
theorem eq_slot (h : g.Lists f) {slot' : Slot} (hslot : f.nameAt? slot = some name)
    (hslot' : f.nameAt? slot' = some name) : slot = slot' := by
  rw [← h.slot?_eq_some_iff] at hslot hslot'
  exact Option.some.inj (hslot.symm.trans hslot')

/-- A name in the table stands for the only field that carries it. -/
theorem find_of_slot (h : g.Lists f) (hslot : g.slot? name = some slot) :
    ∃ c, f.fieldAt? slot = some c ∧ c.name = some name ∧ g.find name = .ok (slot, c) ∧
      f.field name = .ok c := by
  obtain ⟨c, hc, hname⟩ := FieldLists.nameAt?_eq_some_iff.1 ((h.slot?_eq_some_iff _ _).1 hslot)
  refine ⟨c, hc, hname, ?_, ?_⟩
  · simp only [find, hslot, h.fieldAt?_eq, hc]
  · rw [FieldLists.field]
    -- some field of the name is found, and there is no other
    cases hfind : f.fields.find? fun c => c.name == some name with
    | none =>
        have hno := List.find?_eq_none.1 hfind c (FieldLists.mem_fields_iff.2 ⟨slot, hc⟩)
        simp [hname] at hno
    | some c' =>
        have hname' : c'.name = some name := by simpa using List.find?_some hfind
        obtain ⟨slot', hc'⟩ := FieldLists.mem_fields_iff.1 (List.mem_of_find?_eq_some hfind)
        have heq := h.eq_slot (FieldLists.nameAt?_eq_some_iff.2 ⟨c, hc, hname⟩)
          (FieldLists.nameAt?_eq_some_iff.2 ⟨c', hc', hname'⟩)
        rw [heq, hc'] at hc
        rw [Option.some.inj hc]

/-- A name that is not in the table stands for no field. -/
theorem find_of_none (h : g.Lists f) (hslot : g.slot? name = none) :
    name ∉ f.names ∧ g.find name = .error (.unknownField name) ∧
      f.field name = .error (.unknownField name) := by
  have hno : name ∉ f.names := by
    intro hname
    obtain ⟨slot, hname⟩ := FieldLists.mem_names_iff.1 hname
    rw [← h.slot?_eq_some_iff, hslot] at hname
    cases hname
  refine ⟨hno, by simp only [find, hslot], ?_⟩
  rw [FieldLists.field]
  cases hfind : f.fields.find? fun c => c.name == some name with
  | none => rfl
  | some c =>
      have hname : c.name = some name := by simpa using List.find?_some hfind
      exact absurd (List.mem_filterMap.2 ⟨c, List.mem_of_find?_eq_some hfind, hname⟩) hno

theorem hasField_iff (h : g.Lists f) : g.hasField name = true ↔ name ∈ f.names := by
  rw [hasField, Option.isSome_iff_exists, FieldLists.mem_names_iff]
  exact exists_congr fun slot => h.slot?_eq_some_iff name slot

/-- No two fields carry the same name. -/
theorem nodup_names (h : g.Lists f) : f.names.Nodup := by
  -- a member of the list of all fields stands at a place, and members behind it at other places
  have hplace : ∀ i c, f.fields[i]? = some c → ∃ slot, f.fieldAt? slot = some c ∧
      slot = if i < f.required.length then .required i else .optional (i - f.required.length) := by
    intro i c hi
    rw [FieldLists.fields, List.getElem?_append] at hi
    split at hi
    · rename_i hlt
      exact ⟨.required i, hi, (if_pos hlt).symm⟩
    · rename_i hlt
      rw [List.getElem?_map] at hi
      exact ⟨.optional (i - f.required.length), hi, (if_neg hlt).symm⟩
  rw [FieldLists.names, List.Nodup, List.pairwise_filterMap, List.pairwise_iff_getElem]
  intro i j hi hj hij name hname name' hname' heq
  obtain ⟨slot, hc, hslot⟩ := hplace i _ (List.getElem?_eq_getElem hi)
  obtain ⟨slot', hc', hslot'⟩ := hplace j _ (List.getElem?_eq_getElem hj)
  subst heq
  have hsame := h.eq_slot (FieldLists.nameAt?_eq_some_iff.2 ⟨_, hc, hname⟩)
    (FieldLists.nameAt?_eq_some_iff.2 ⟨_, hc', hname'⟩)
  rw [hslot, hslot'] at hsame
  split at hsame <;> split at hsame <;> simp at hsame <;> omega

/-- Other fields and other marks, but the names where they were. -/
theorem congr (h : g.Lists f) (hslots : g'.slots = g.slots) (hnames : f'.nameAt? = f.nameAt?)
    (hreq : g'.required = f'.required)
    (hopt : g'.optional = f'.optional.map OptionalField.component)
    (hmarks : g'.indicator.toList = f'.optional.map OptionalField.present)
    (hwf : g'.indicator.WellFormed) : g'.Lists f' := by
  refine ⟨hreq, hopt, hmarks, hwf, ?_⟩
  intro name slot
  rw [slot?, hslots, hnames]
  exact h.slot?_eq_some_iff name slot

/-! ### One call -/

theorem empty : (GroupOf.empty : Group).Lists .empty := by
  refine ⟨rfl, rfl, rfl, .replicate 0, ?_⟩
  intro name slot
  constructor
  · intro h
    cases h
  · intro h
    cases slot <;> cases h

/-- The table with a name more leads from it to a place that was free, if the field there now
carries it. -/
theorem slot?_append (h : g.Lists f) (last : Slot) (hname : g.slot? name = none)
    (hlast : f.nameAt? last = none) (hslots : g'.slots = g.slots ++ [(name, last)])
    (hnames : ∀ slot, f'.nameAt? slot = if slot = last then some name else f.nameAt? slot)
    (n : String) (slot : Slot) : g'.slot? n = some slot ↔ f'.nameAt? slot = some n := by
  have hnew : g'.slot? n = if n = name then some last else g.slot? n := by
    rw [slot?, hslots, List.lookup_append]
    split
    · rename_i hn
      subst hn
      rw [slot?] at hname
      simp [hname]
    · rename_i hn
      simp [List.lookup_cons, beq_eq_false_iff_ne.2 hn, slot?]
  rw [hnew, hnames]
  have hold := h.slot?_eq_some_iff
  by_cases hn : n = name
  · subst hn
    rw [if_pos rfl, Option.some.injEq]
    by_cases hslot : slot = last
    · simp [hslot]
    · rw [if_neg hslot, ← hold, hname]
      simp [Ne.symm hslot]
  · rw [if_neg hn, hold]
    by_cases hslot : slot = last
    · simp [hslot, hlast, Ne.symm hn]
    · rw [if_neg hslot]

theorem add (h : g.Lists f) (c : Component) (optional : Bool) :
    Alike Lists (g.addField c optional) (f.add c optional) := by
  rw [addField, FieldLists.add]
  cases hc : c.name with
  | none =>
      cases optional with
      | true => exact .error _
      | false =>
          have hfree : f.nameAt? (.required f.required.length) = none := by
            simp [FieldLists.nameAt?_required]
          refine .ok (h.congr rfl ?_ ?_ h.optional_eq h.marks_eq h.indicator_wellFormed)
          · funext slot
            rw [FieldLists.nameAt?_append_required, hc]
            split
            · rename_i hslot
              rw [hslot, hfree]
            · rfl
          · simp [append, h.required_eq]
  | some name =>
      simp only [h.hasField_iff]
      by_cases hname : name ∈ f.names
      · rw [if_pos hname, if_pos hname]
        exact .error _
      · have hslot : g.slot? name = none := by
          simpa [hasField] using mt h.hasField_iff.1 hname
        rw [if_neg hname, if_neg hname]
        cases optional with
        | false =>
            rw [if_neg Bool.false_ne_true]
            refine .ok ⟨?_, h.optional_eq, h.marks_eq, h.indicator_wellFormed, ?_⟩
            · simp [append, h.required_eq]
            · refine h.slot?_append (.required f.required.length) hslot ?_ ?_ ?_
              · simp [FieldLists.nameAt?_required]
              · simp [nextSlot, h.required_eq]
              · intro slot
                rw [FieldLists.nameAt?_append_required, hc]
        | true =>
            rw [if_pos rfl]
            refine .ok ⟨h.required_eq, ?_, ?_, .resize _ _, ?_⟩
            · simp [append, h.optional_eq, OptionalField.component, ← hc]
            · -- the marks are one longer, and the new one is clear
              have hlen : g.optional.length = g.indicator.len := by
                rw [h.optional_eq, List.length_map, h.len_indicator]
              have hresize := h.indicator_wellFormed.toList_resize (g.optional.length + 1)
              rw [hlen, List.take_of_length_le (by simp)] at hresize
              simp [append, hlen, hresize, h.marks_eq]
            · refine h.slot?_append (.optional f.optional.length) hslot ?_ ?_ ?_
              · simp [FieldLists.nameAt?_optional]
              · simp [nextSlot, h.optional_eq]
              · intro slot
                rw [FieldLists.nameAt?_append_optional]

/-- A name in the table stands at its place and at no other. -/
theorem nameAt?_eq_iff (h : g.Lists f) (hslot : g.slot? name = some slot) {slot' : Slot} :
    f.nameAt? slot' = some name ↔ slot' = slot := by
  rw [← h.slot?_eq_some_iff, hslot, Option.some.injEq]
  exact eq_comm

theorem required_iff (h : g.Lists f) (hslot : g.slot? name = some slot) {i : Nat}
    (hc : f.required[i]? = some c) : c.name = some name ↔ .required i = slot := by
  rw [← h.nameAt?_eq_iff hslot, FieldLists.nameAt?_required, hc]
  rfl

theorem optional_iff (h : g.Lists f) (hslot : g.slot? name = some slot) {i : Nat}
    {o : OptionalField} (ho : f.optional[i]? = some o) : o.name = name ↔ .optional i = slot := by
  rw [← h.nameAt?_eq_iff hslot, FieldLists.nameAt?_optional, ho, Option.map_some,
    Option.some.injEq]

/-- No required field has the name of an optional one. -/
theorem required_ne (h : g.Lists f) {i : Nat} (hslot : g.slot? name = some (.optional i)) :
    ∀ c ∈ f.required, c.name ≠ some name := by
  intro c hc hname
  obtain ⟨j, hj⟩ := List.mem_iff_getElem?.1 hc
  cases (h.required_iff hslot hj).1 hname

/-- No optional field has the name of a required one. -/
theorem optional_ne (h : g.Lists f) {i : Nat} (hslot : g.slot? name = some (.required i)) :
    ∀ o ∈ f.optional, o.name ≠ name := by
  intro o ho hname
  obtain ⟨j, hj⟩ := List.mem_iff_getElem?.1 ho
  cases (h.optional_iff hslot hj).1 hname

/-- Without a required field, the lists have the other required fields. -/
theorem without_required (h : g.Lists f) {i : Nat} (hslot : g.slot? name = some (.required i)) :
    f.without name = { f with required := f.required.eraseIdx i } := by
  have hreq : (f.required.filter fun c => c.name != some name) = f.required.eraseIdx i := by
    refine filter_eq_eraseIdx ?_
    intro j c hc
    have hplace := h.required_iff hslot hc
    simpa using hplace
  have hopt : (f.optional.filter fun o => o.name != name) = f.optional := by
    refine List.filter_eq_self.2 ?_
    intro o ho
    exact bne_iff_ne.2 (h.optional_ne hslot o ho)
  rw [FieldLists.without, hreq, hopt]

/-- Without an optional field, the lists have the other optional fields. -/
theorem without_optional (h : g.Lists f) {i : Nat} (hslot : g.slot? name = some (.optional i)) :
    f.without name = { f with optional := f.optional.eraseIdx i } := by
  have hreq : (f.required.filter fun c => c.name != some name) = f.required := by
    refine List.filter_eq_self.2 ?_
    intro c hc
    exact bne_iff_ne.2 (h.required_ne hslot c hc)
  have hopt : (f.optional.filter fun o => o.name != name) = f.optional.eraseIdx i := by
    refine filter_eq_eraseIdx ?_
    intro j o ho
    have hplace := h.optional_iff hslot ho
    simpa using hplace
  rw [FieldLists.without, hreq, hopt]

/-- The table after a removal leads from every name but that of the field that has left to the
place that its field has moved to. -/
theorem slot?_removal (h : g.Lists f) {gone : Slot} (hslot : g.slot? name = some gone)
    (hslots : g'.slots = g.slotsAfterRemoval name gone)
    (hnames : ∀ slot, f'.nameAt? slot = f.nameAt? (gone.beforeRemoval slot))
    (n : String) (slot : Slot) : g'.slot? n = some slot ↔ f'.nameAt? slot = some n := by
  rw [slot?, hslots, lookup_slotsAfterRemoval, hnames, ← h.slot?_eq_some_iff]
  by_cases hn : n = name
  · subst hn
    rw [if_pos rfl, hslot]
    simp [(gone.beforeRemoval_ne slot).symm]
  · rw [if_neg hn]
    cases hother : g.slot? n with
    | none => simp
    | some slot' =>
        have hne : slot' ≠ gone := by
          rintro rfl
          have hname := (h.slot?_eq_some_iff _ _).1 hother
          rw [(h.slot?_eq_some_iff _ _).1 hslot] at hname
          exact hn (Option.some.inj hname).symm
        rw [Option.map_some, Option.some.injEq, Option.some.injEq,
          gone.afterRemoval_eq_iff hne]

/-- The place of an optional field has a mark. -/
theorem lt_of_slot (h : g.Lists f) {i : Nat} (hslot : g.slot? name = some (.optional i)) :
    i < g.indicator.len := by
  have hname := (h.slot?_eq_some_iff _ _).1 hslot
  rw [FieldLists.nameAt?_optional, Option.map_eq_some_iff] at hname
  obtain ⟨o, ho, -⟩ := hname
  rw [h.len_indicator]
  exact (List.getElem?_eq_some_iff.1 ho).1

/-- The mark of an optional field can be taken out. -/
theorem exists_remove (h : g.Lists f) {i : Nat} (hslot : g.slot? name = some (.optional i)) :
    ∃ bit indicator, g.indicator.remove i = .ok (bit, indicator) := by
  have hi := h.lt_of_slot hslot
  rcases hremove : g.indicator.remove i with e | ⟨bit, indicator⟩
  · have hle := (BitSet.remove_eq_error_iff.1 hremove).1
    omega
  · exact ⟨bit, indicator, rfl⟩

theorem remove (h : g.Lists f) (name : String) :
    Alike (fun r r' => r.1 = r'.1 ∧ r.2.Lists r'.2) (g.removeField name) (f.remove name) := by
  rw [removeField, FieldLists.remove]
  cases hslot : g.slot? name with
  | none =>
      obtain ⟨-, hfind, hfield⟩ := h.find_of_none hslot
      rw [hfind, hfield]
      exact .error _
  | some slot =>
      obtain ⟨c, hc, -, hfind, hfield⟩ := h.find_of_slot hslot
      rw [hfind, hfield]
      cases slot with
      | required i =>
          rw [h.without_required hslot]
          refine .ok ⟨rfl, ?_, h.optional_eq, h.marks_eq, h.indicator_wellFormed,
            h.slot?_removal hslot rfl (f.nameAt?_eraseIdx_required i)⟩
          simp [h.required_eq]
      | optional i =>
          rw [h.without_optional hslot]
          obtain ⟨bit, indicator, hind⟩ := h.exists_remove hslot
          simp only [hind]
          refine .ok ⟨rfl, h.required_eq, ?_, ?_, .remove hind,
            h.slot?_removal hslot rfl (f.nameAt?_eraseIdx_optional i)⟩
          · simp [h.optional_eq, List.eraseIdx_map]
          · simp [(h.indicator_wellFormed.toList_of_remove hind).2, h.marks_eq, List.eraseIdx_map]

theorem any_required_iff (h : g.Lists f) (name : String) :
    (f.required.any fun c => c.name == some name) = true ↔
      ∃ i, g.slot? name = some (.required i) := by
  simp only [List.any_eq_true, beq_iff_eq, List.mem_iff_getElem?, h.slot?_eq_some_iff,
    FieldLists.nameAt?_required, Option.bind_eq_some_iff]
  constructor
  · rintro ⟨c, ⟨i, hi⟩, hname⟩
    exact ⟨i, c, hi, hname⟩
  · rintro ⟨i, c, hi, hname⟩
    exact ⟨c, ⟨i, hi⟩, hname⟩

theorem any_optional_iff (h : g.Lists f) (name : String) :
    (f.optional.any fun o => o.name == name) = true ↔
      ∃ i, g.slot? name = some (.optional i) := by
  simp only [List.any_eq_true, beq_iff_eq, List.mem_iff_getElem?, h.slot?_eq_some_iff,
    FieldLists.nameAt?_optional, Option.map_eq_some_iff]
  constructor
  · rintro ⟨o, ⟨i, hi⟩, hname⟩
    exact ⟨i, o, hi, hname⟩
  · rintro ⟨i, o, hi, hname⟩
    exact ⟨o, ⟨i, hi⟩, hname⟩

theorem setPresent (h : g.Lists f) (name : String) (present : Bool) :
    Alike Lists (g.setPresent name present) (f.setPresent name present) := by
  have hreq := h.any_required_iff name
  have hopt := h.any_optional_iff name
  rw [GroupOf.setPresent, FieldLists.setPresent]
  cases hslot : g.slot? name with
  | none =>
      rw [if_neg (mt hreq.1 (by simp [hslot])), if_neg (mt hopt.1 (by simp [hslot]))]
      exact .error _
  | some slot =>
      cases slot with
      | required i =>
          rw [if_pos (hreq.2 ⟨i, hslot⟩)]
          exact .error _
      | optional i =>
          rw [if_neg (mt hreq.1 (by simp [hslot])), if_pos (hopt.2 ⟨i, hslot⟩)]
          have hi := h.lt_of_slot hslot
          rcases hind : g.indicator.set i present with e | indicator
          · have hle := (BitSet.set_eq_error_iff.1 hind).1
            omega
          · obtain ⟨o, ho⟩ : ∃ o, f.optional[i]? = some o :=
              ⟨_, List.getElem?_eq_getElem (h.len_indicator ▸ hi)⟩
            have hmarks : (f.withMark name present).optional =
                f.optional.set i { o with present } := by
              refine map_ite_eq_set (P := fun o : OptionalField => o.name = name)
                (φ := fun o => { o with present }) ho ?_
              intro j x hx
              rw [h.optional_iff hslot hx, Slot.optional.injEq]
            simp only [hind]
            refine .ok (h.congr rfl (f.nameAt?_withMark name present) h.required_eq ?_ ?_
              (h.indicator_wellFormed.set hind))
            · rw [f.components_withMark, h.optional_eq]
            · rw [h.indicator_wellFormed.toList_of_set hind, h.marks_eq, hmarks, List.map_set]

theorem forget (h : g.Lists f) : g.forget.Lists f :=
  ⟨h.required_eq, h.optional_eq, h.marks_eq, h.indicator_wellFormed, h.slot?_eq_some_iff⟩

/-- The field at the place of a name is the field of that name. -/
theorem setFieldAt (h : g.Lists f) (hslot : g.slot? name = some slot)
    (hc : f.fieldAt? slot = some c) (kind : Kind) :
    (g.setFieldAt slot (c.withKind kind)).forget.Lists (f.withKind name kind) := by
  have hnames := f.nameAt?_withKind name kind
  cases slot with
  | required i =>
      have hreq : (f.withKind name kind).required = f.required.set i (c.withKind kind) := by
        refine map_ite_eq_set (P := fun c : Component => c.name = some name)
          (φ := fun c => c.withKind kind) hc ?_
        intro j x hx
        rw [h.required_iff hslot hx, Slot.required.injEq]
      have hopt : (f.withKind name kind).optional = f.optional :=
        map_ite_eq_self (h.optional_ne hslot)
      refine forget (h.congr rfl hnames ?_ ?_ ?_ h.indicator_wellFormed)
      · rw [hreq, ← h.required_eq]
        rfl
      · rw [hopt, ← h.optional_eq]
        rfl
      · rw [hopt, ← h.marks_eq]
        rfl
  | optional i =>
      obtain ⟨o, ho, rfl⟩ := Option.map_eq_some_iff.1 hc
      have hreq : (f.withKind name kind).required = f.required :=
        map_ite_eq_self (h.required_ne hslot)
      have hopt : (f.withKind name kind).optional = f.optional.set i { o with kind } := by
        refine map_ite_eq_set (P := fun o : OptionalField => o.name = name)
          (φ := fun o => { o with kind }) ho ?_
        intro j x hx
        rw [h.optional_iff hslot hx, Slot.optional.injEq]
      refine forget (h.congr rfl hnames ?_ ?_ ?_ h.indicator_wellFormed)
      · rw [hreq, ← h.required_eq]
        rfl
      · rw [hopt, List.map_set, ← h.optional_eq]
        rfl
      · rw [f.marks_withKind name kind, ← h.marks_eq]
        rfl

theorem modify (h : g.Lists f) (name : String) (φ : Kind → ρ × Kind) :
    (g.modifyField name φ).1 = (f.modify name φ).1 ∧
      (g.modifyField name φ).2.Lists (f.modify name φ).2 := by
  rw [modifyField, FieldLists.modify]
  cases hslot : g.slot? name with
  | none =>
      obtain ⟨-, hfind, hfield⟩ := h.find_of_none hslot
      rw [hfind, hfield]
      exact ⟨rfl, h⟩
  | some slot =>
      obtain ⟨c, hc, -, hfind, hfield⟩ := h.find_of_slot hslot
      rw [hfind, hfield]
      exact ⟨rfl, h.setFieldAt hslot hc _⟩

theorem modifyAs (h : g.Lists f) (v : Variant) (name : String)
    (φ : v.Content → ρ × v.Content) :
    (g.modifyAs v name φ).1 = (f.modifyAs v name φ).1 ∧
      (g.modifyAs v name φ).2.Lists (f.modifyAs v name φ).2 := by
  rw [GroupOf.modifyAs, FieldLists.modifyAs]
  cases hslot : g.slot? name with
  | none =>
      obtain ⟨-, hfind, hfield⟩ := h.find_of_none hslot
      rw [hfind, hfield]
      exact ⟨rfl, h⟩
  | some slot =>
      obtain ⟨c, hc, -, hfind, hfield⟩ := h.find_of_slot hslot
      rw [hfind, hfield]
      simp only
      rcases c.kind.downcast v with e | content
      · exact ⟨rfl, h.forget⟩
      · exact ⟨rfl, h.setFieldAt hslot hc _⟩

theorem field_eq (h : g.Lists f) (name : String) : g.field name = f.field name := by
  rw [GroupOf.field]
  cases hslot : g.slot? name with
  | none =>
      obtain ⟨-, hfind, hfield⟩ := h.find_of_none hslot
      rw [hfind, hfield]
  | some slot =>
      obtain ⟨c, -, -, hfind, hfield⟩ := h.find_of_slot hslot
      rw [hfind, hfield]

theorem enable (h : g.Lists f) (v : Variant) (name : String) (φ : v.Content → ρ × v.Content) :
    (g.enable v name φ).1 = (f.enable v name φ).1 ∧
      (g.enable v name φ).2.Lists (f.enable v name φ).2 := by
  rw [GroupOf.enable, FieldLists.enable, GroupOf.get, h.field_eq]
  rcases f.field name with e | c
  · exact ⟨rfl, h⟩
  · simp only
    rcases c.kind.downcast v with e | content
    · exact ⟨rfl, h⟩
    · simp only
      have hset := h.setPresent name true
      rcases hg : g.setPresent name true with e | g₁ <;>
        rcases hf : f.setPresent name true with e' | f₁ <;> rw [hg, hf] at hset
      · cases hset
        exact ⟨rfl, h⟩
      · cases hset
      · cases hset
      · cases hset with
        | ok hlists => exact hlists.modifyAs v name φ

theorem clear (h : g.Lists f) : (Edit.clear .group g).2.Lists f.clear := by
  refine h.congr rfl f.nameAt?_clear ?_ ?_ ?_ h.indicator_wellFormed.clear
  · change Kind.clearAll g.required = _
    rw [Kind.clearAll_eq, h.required_eq]
    rfl
  · change Kind.clearAll g.optional = _
    rw [Kind.clearAll_eq, h.optional_eq, FieldLists.clear, List.map_map, List.map_map]
    rfl
  · change g.indicator.clear.toList = _
    rw [BitSet.toList_clear, h.len_indicator, FieldLists.clear, List.map_map,
      eq_comm, List.eq_replicate_iff]
    simp

theorem isPresent_eq (h : g.Lists f) (name : String) : g.isPresent name = f.isPresent name := by
  have hreq := h.any_required_iff name
  have hopt := h.any_optional_iff name
  rw [GroupOf.isPresent, FieldLists.isPresent]
  cases hslot : g.slot? name with
  | none =>
      have hno := mt hopt.1 (by simp [hslot])
      have hfind : f.optional.find? (fun o => o.name == name) = none := by simpa using hno
      rw [if_neg (mt hreq.1 (by simp [hslot])), hfind]
  | some slot =>
      cases slot with
      | required i => rw [if_pos (hreq.2 ⟨i, hslot⟩)]
      | optional i =>
          rw [if_neg (mt hreq.1 (by simp [hslot]))]
          have hi := h.lt_of_slot hslot
          obtain ⟨o, hfind⟩ : ∃ o, f.optional.find? (fun o => o.name == name) = some o := by
            rw [← Option.isSome_iff_exists, List.find?_isSome, ← List.any_eq_true]
            exact hopt.2 ⟨i, hslot⟩
          have hname : o.name = name := by simpa using List.find?_some hfind
          obtain ⟨j, hj⟩ := List.mem_iff_getElem?.1 (List.mem_of_find?_eq_some hfind)
          cases (h.optional_iff hslot hj).1 hname
          -- the mark at the place of the field is the mark of the field
          have hmark := congrArg (·[i]?) h.marks_eq
          simp only [List.getElem?_map, hj, Option.map_some] at hmark
          obtain ⟨hlt, hget⟩ := List.getElem?_eq_some_iff.1 hmark
          rw [BitSet.getElem_toList] at hget
          simp only [hfind, hget]

theorem read_group (h : g.Lists f) (s : BitStream) :
    ∃ g', (Kind.group g).read s = ((f.read s).1, .group g', (f.read s).2.2) ∧
      g'.Lists (f.read s).2.1 := by
  have hind : g.indicator = .ofList (f.optional.map OptionalField.present) := by
    refine h.indicator_wellFormed.eq_of_toList_eq (.ofList _) ?_
    rw [BitSet.toList_ofList, h.marks_eq]
  have hnames := names_readAll f.required s
  have hwf (s₁ : BitStream) := h.indicator_wellFormed.read s₁
  have hlen (s₁ : BitStream) := g.indicator.len_read s₁
  simp only [Kind.read, GroupOf.forget, h.required_eq, FieldLists.read]
  rw [hind] at hwf hlen ⊢
  rcases hr : Kind.readAll f.required s with ⟨_ | n, required, s₁⟩ <;> rw [hr] at hnames
  · refine ⟨_, rfl, h.congr rfl (FieldLists.nameAt?_congr hnames rfl) rfl h.optional_eq ?_ ?_⟩
    · rw [BitSet.toList_ofList]
    · exact .ofList _
  · rcases hm : (BitSet.ofList (f.optional.map OptionalField.present)).read s₁ with
      ⟨_ | m, marks, s₂⟩
    · cases BitSet.eq_of_read_error hm
      simp only [hm]
      refine ⟨_, rfl, h.congr rfl (FieldLists.nameAt?_congr hnames rfl) rfl h.optional_eq ?_ ?_⟩
      · rw [BitSet.toList_ofList]
      · exact .ofList _
    · have hwf₁ := hwf s₁
      have hlen₁ := hlen s₁
      rw [hm] at hwf₁ hlen₁
      have hlength : marks.toList.length = f.optional.length := by
        rw [BitSet.length_toList, hlen₁, ← BitSet.length_toList, BitSet.toList_ofList,
          List.length_map]
      -- the fields are read by the marks that have just been read
      have hread := readPresent_map (f.withMarks marks.toList) s₂
      have hname := FieldLists.map_readOptional (φ := OptionalField.name) (fun _ _ => rfl)
        (f.withMarks marks.toList) s₂
      have hmark := FieldLists.map_readOptional (φ := OptionalField.present) (fun _ _ => rfl)
        (f.withMarks marks.toList) s₂
      rw [f.marks_withMarks hlength,
        f.map_withMarks (φ := OptionalField.component) (fun _ _ => rfl) hlength,
        ← h.optional_eq] at hread
      rw [f.map_withMarks (fun _ _ => rfl) hlength] at hname
      rw [f.marks_withMarks hlength] at hmark
      simp only [hm, hread]
      rcases ho : FieldLists.readOptional (f.withMarks marks.toList) s₂ with
        ⟨_ | l, optional, s₃⟩ <;> rw [ho] at hname hmark
      · exact ⟨_, rfl, h.congr rfl (FieldLists.nameAt?_congr hnames hname) rfl rfl hmark.symm hwf₁⟩
      · exact ⟨_, rfl, h.congr rfl (FieldLists.nameAt?_congr hnames hname) rfl rfl hmark.symm hwf₁⟩

theorem read (h : g.Lists f) (s : BitStream) :
    (Edit.read s .group g).1 = ((f.read s).1, (f.read s).2.2) ∧
      (Edit.read s .group g).2.Lists (f.read s).2.1 := by
  obtain ⟨g', hread, hlists⟩ := h.read_group s
  rw [Edit.read_eq (v := .group) hread]
  exact ⟨rfl, hlists⟩

theorem ofUpdate (h : g.Lists f) {r : Except WireError Group} {r' : Except WireError FieldLists}
    (hr : Alike Lists r r') :
    (FieldAnswer.ofUpdate (ρ := ρ) g r).1 = (FieldAnswer.ofUpdate f r').1 ∧
      (FieldAnswer.ofUpdate (ρ := ρ) g r).2.Lists (FieldAnswer.ofUpdate (ρ := ρ) f r').2 := by
  cases hr with
  | ok hlists => exact ⟨rfl, hlists⟩
  | error e => exact ⟨rfl, h⟩

theorem ofRemoval (h : g.Lists f) {r : Except WireError (Component × Group)}
    {r' : Except WireError (Component × FieldLists)}
    (hr : Alike (fun r r' => r.1 = r'.1 ∧ r.2.Lists r'.2) r r') :
    (FieldAnswer.ofRemoval (ρ := ρ) g r).1 = (FieldAnswer.ofRemoval f r').1 ∧
      (FieldAnswer.ofRemoval (ρ := ρ) g r).2.Lists (FieldAnswer.ofRemoval (ρ := ρ) f r').2 := by
  cases hr with
  | ok hremoved =>
      obtain ⟨hc, hlists⟩ := hremoved
      exact ⟨congrArg (fun c => Except.ok (FieldAnswer.removed c)) hc, hlists⟩
  | error e => exact ⟨rfl, h⟩

theorem ofChange {o : Outcome Group ρ} {o' : Outcome FieldLists ρ} (hanswer : o.1 = o'.1)
    (hlists : o.2.Lists o'.2) :
    (FieldAnswer.ofChange o).1 = (FieldAnswer.ofChange o').1 ∧
      (FieldAnswer.ofChange o).2.Lists (FieldAnswer.ofChange o').2 := by
  obtain ⟨r, g⟩ := o
  obtain ⟨r', f⟩ := o'
  cases hanswer
  cases r <;> exact ⟨rfl, hlists⟩

/-- A group and its lists answer a call alike, and what the call leaves are a group and its
lists. -/
theorem perform (h : g.Lists f) (call : FieldCall ρ) :
    (g.perform call).1 = (f.perform call).1 ∧ (g.perform call).2.Lists (f.perform call).2 := by
  cases call with
  | add c optional => exact h.ofUpdate (h.add c optional)
  | remove name => exact h.ofRemoval (h.remove name)
  | setPresent name present => exact h.ofUpdate (h.setPresent name present)
  | modify name φ =>
      obtain ⟨hanswer, hlists⟩ := h.modify name φ
      exact ofChange hanswer hlists
  | modifyAs v name φ =>
      obtain ⟨hanswer, hlists⟩ := h.modifyAs v name φ
      exact ofChange hanswer hlists
  | enable v name φ =>
      obtain ⟨hanswer, hlists⟩ := h.enable v name φ
      exact ofChange hanswer hlists
  | clear => exact ⟨rfl, h.clear⟩
  | read s =>
      obtain ⟨hanswer, hlists⟩ := h.read s
      refine ⟨?_, hlists⟩
      simp only [GroupOf.perform, FieldLists.perform, hanswer]

end Lists

/-! ### Whole runs -/

/-- What can be seen of the group is in the lists. -/
structure Shows (g : Group) (f : FieldLists) : Prop where
  /-- No two fields have the same name. -/
  nodup_names : f.names.Nodup
  /-- The required fields, in order. -/
  required_eq : g.required = f.required
  /-- The optional fields, in order. -/
  optional_eq : g.optional = f.optional.map OptionalField.component
  /-- The number of fields. -/
  len_eq : g.len = f.required.length + f.optional.length
  /-- There is a mark for every optional field. -/
  len_indicator : g.indicator.len = f.optional.length
  /-- The marks, in order. -/
  marks_eq : g.indicator.toList = f.optional.map OptionalField.present
  /-- A name has a place among the required fields if the field there carries it. -/
  slot?_required : ∀ name i, g.slot? name = some (.required i) ↔
    ∃ c, f.required[i]? = some c ∧ c.name = some name
  /-- A name has a place among the optional fields if the field there carries it. -/
  slot?_optional : ∀ name i, g.slot? name = some (.optional i) ↔
    ∃ o, f.optional[i]? = some o ∧ o.name = name
  /-- The field of a name. -/
  field_eq : ∀ name, g.field name = f.field name
  /-- Whether the field of a name is present. -/
  isPresent_eq : ∀ name, g.isPresent name = f.isPresent name
  /-- The mark of an optional field can be taken out. -/
  remove_ok : ∀ name i, g.slot? name = some (.optional i) →
    ∃ bit indicator, g.indicator.remove i = .ok (bit, indicator)

theorem Lists.shows (h : g.Lists f) : g.Shows f where
  nodup_names := h.nodup_names
  required_eq := h.required_eq
  optional_eq := h.optional_eq
  len_eq := by rw [len, h.required_eq, h.optional_eq, List.length_map]
  len_indicator := h.len_indicator
  marks_eq := h.marks_eq
  slot?_required name i := by
    rw [h.slot?_eq_some_iff, FieldLists.nameAt?_required, Option.bind_eq_some_iff]
  slot?_optional name i := by
    rw [h.slot?_eq_some_iff, FieldLists.nameAt?_optional, Option.map_eq_some_iff]
  field_eq := h.field_eq
  isPresent_eq := h.isPresent_eq
  remove_ok _ _ := h.exists_remove

/-- **A group and its lists.**  Whatever the calls are, a group that was new answers every one of
them, the ones that fail included, as its lists do, and shows what is in the lists. -/
theorem run_eq_lists_run (calls : List (FieldCall ρ)) :
    (runCalls perform (.empty : Group) calls).1 = (runCalls FieldLists.perform .empty calls).1 ∧
      Shows (runCalls perform (.empty : Group) calls).2
        (runCalls FieldLists.perform .empty calls).2 := by
  obtain ⟨hanswers, hlists⟩ := runCalls_simulates
    (fun g f call (h : Lists g f) => h.perform call) Lists.empty calls
  exact ⟨hanswers, hlists.shows⟩

/-- After the first of two optional fields has left, the other one has its place and its mark. -/
example :
    let calls : List (FieldCall Unit) :=
      [.add ⟨some "a", .scalar (.bool false)⟩ true, .add ⟨some "b", .scalar (.bool false)⟩ true,
        .setPresent "b" true, .remove "a"]
    let g := (runCalls perform (.empty : Group) calls).2
    g.slot? "b" = some (.optional 0) ∧ g.indicator.toList = [true] := by
  decide

end GroupOf

end WireTree
