/-
**Tables of names stay in step.**

A group finds its fields by a table of names that is kept beside them.  `GroupOf.Lists` says of one
group that the table leads from a name to the place of the field that carries it, and to no other.
Here this is said of every group of a tree, those inside prototypes and absent fields included, and
it holds of every component that comes up: reads that fail halfway, and sizes that are asked for in
between, change no name and no place.

So the names of the fields decide what the table answers, whatever it went through.

Main definitions:

* `WireTree.Kind.Tabled` — in every group of a tree the table is in step with the fields.

Main results:

* `WireTree.GroupOf.Lists.slot?_congr` — groups with the same names find them at the same places;
* `WireTree.Kind.Reachable.tabled` — **tables of names stay in step**.
-/

import WireTree.Proofs.Component.GroupLists
import WireTree.Proofs.Component.Operations
import WireTree.Proofs.Component.Places

set_option relaxedAutoImplicit false
set_option autoImplicit false

namespace WireTree

/-! ### One group -/

namespace GroupOf

variable {g g' : Group} {f f' : FieldLists} {c : Component}

/-- Groups that have fields of the same names in the same order find them at the same places. -/
theorem Lists.slot?_congr (h : g.Lists f) (h' : g'.Lists f')
    (hreq : g'.required.map Named.name = g.required.map Named.name)
    (hopt : g'.optional.map Named.name = g.optional.map Named.name) : g'.slot? = g.slot? := by
  have hnames : f'.nameAt? = f.nameAt? := by
    refine FieldLists.nameAt?_congr ?_ ?_
    · rw [← h.required_eq, ← h'.required_eq, hreq]
    · rw [h.optional_eq, h'.optional_eq] at hopt
      simpa [List.filterMap_map, Function.comp_def, OptionalField.component] using
        congrArg (List.filterMap id) hopt
  funext name
  refine Option.ext ?_
  intro slot
  rw [h'.slot?_eq_some_iff, h.slot?_eq_some_iff, hnames]

/-- Components with the names of optional fields are optional fields with the same marks. -/
theorem exists_optionalFields {os : List OptionalField} {cs : List Component}
    (h : cs.map Named.name = (os.map OptionalField.component).map Named.name) :
    ∃ os' : List OptionalField, os'.map OptionalField.component = cs ∧
      os'.map OptionalField.name = os.map OptionalField.name ∧
      os'.map OptionalField.present = os.map OptionalField.present := by
  induction os generalizing cs with
  | nil =>
      cases cs with
      | nil => exact ⟨[], rfl, rfl, rfl⟩
      | cons c cs => cases h
  | cons o os ih =>
      cases cs with
      | nil => cases h
      | cons c cs =>
          obtain ⟨hname, hnames⟩ := List.cons.inj h
          obtain ⟨os', hcomponents, hnames', hmarks⟩ := ih hnames
          have hc : ({ o with kind := c.kind } : OptionalField).component = c := by
            rw [OptionalField.component, ← show c.name = some o.name from hname]
          refine ⟨{ o with kind := c.kind } :: os', ?_, ?_, ?_⟩
          · rw [List.map_cons, hc, hcomponents]
          · rw [List.map_cons, List.map_cons, hnames']
          · rw [List.map_cons, List.map_cons, hmarks]

/-- Fields may be exchanged for others of the same names. -/
theorem Lists.exchange (h : g.Lists f) (hslots : g'.slots = g.slots)
    (hind : g'.indicator = g.indicator)
    (hreq : g'.required.map Named.name = g.required.map Named.name)
    (hopt : g'.optional.map Named.name = g.optional.map Named.name) : ∃ f', g'.Lists f' := by
  rw [h.optional_eq] at hopt
  obtain ⟨optional, hcomponents, hnames, hmarks⟩ := exists_optionalFields hopt
  refine ⟨⟨g'.required, optional⟩, h.congr hslots ?_ rfl hcomponents.symm ?_ ?_⟩
  · exact FieldLists.nameAt?_congr (by rw [hreq, h.required_eq]) hnames
  · rw [hind, h.marks_eq, hmarks]
  · rw [hind]
    exact h.indicator_wellFormed

variable {P : Kind → Prop}

theorem All.addField (h : g.All P) (hc : P c.kind) {optional : Bool}
    (hadd : g.addField c optional = .ok g') : g'.All P := by
  have hnew : ∀ d ∈ [c], P d.kind := List.forall_mem_singleton.2 hc
  have happ : (g.append c optional).All P := by
    cases optional with
    | false => exact ⟨List.forall_mem_append.2 ⟨h.1, hnew⟩, h.2⟩
    | true => exact ⟨h.1, List.forall_mem_append.2 ⟨h.2, hnew⟩⟩
  unfold GroupOf.addField at hadd
  split at hadd <;> split at hadd <;> cases hadd <;> exact happ

theorem All.removeField (h : g.All P) {name : String} (hremove : g.removeField name = .ok (c, g')) :
    g'.All P := by
  unfold GroupOf.removeField at hremove
  split at hremove
  · cases hremove
  · cases hremove
    exact ⟨fun d hd => h.1 d (List.mem_of_mem_eraseIdx hd), h.2⟩
  · split at hremove
    · cases hremove
    · cases hremove
      exact ⟨h.1, fun d hd => h.2 d (List.mem_of_mem_eraseIdx hd)⟩

/-- What holds of fields, whether they have been read or not, holds of all fields after a read of
their group, however it ends. -/
theorem All.read (hreq : ∀ c ∈ g.required, P c.kind ∧ ∀ s, P (c.kind.read s).2.1)
    (hopt : ∀ c ∈ g.optional, P c.kind ∧ ∀ s, P (c.kind.read s).2.1) {s : BitStream}
    (hread : ((Kind.group g).read s).2.1 = .group g') : g'.All P := by
  obtain ⟨g₁, hread₁, hfields⟩ := Kind.exists_read_group g s
  obtain rfl : g' = g₁ := Kind.group.inj (hread.symm.trans hread₁)
  constructor
  · intro c hc
    obtain ⟨i, hi⟩ := List.mem_iff_getElem?.1 hc
    rcases hfields (.required i) with hsame | ⟨d, t, hstep, hnew⟩
    · exact (hreq c (List.mem_of_getElem? (hsame.symm.trans hi))).1
    · obtain rfl := Option.some.inj (hi.symm.trans hnew)
      exact (hreq d (List.mem_of_getElem? hstep.child_eq)).2 t
  · intro c hc
    obtain ⟨i, hi⟩ := List.mem_iff_getElem?.1 hc
    rcases hfields (.optional i) with hsame | ⟨d, t, hstep, hnew⟩
    · exact (hopt c (List.mem_of_getElem? (hsame.symm.trans hi))).1
    · obtain rfl := Option.some.inj (hi.symm.trans hnew)
      exact (hopt d (List.mem_of_getElem? hstep.child_eq)).2 t

end GroupOf

/-! ### One array -/

namespace ArrayOf

variable {ρ σ : Type} {v : Variant}

@[simp] theorem prototype_push (a : ArrayField) (f : v.Content → ρ × v.Content) :
    (a.push v f).2.prototype = a.prototype := by
  rcases push_cases a v f with heq | ⟨c, hpush⟩
  · rw [heq]
  · obtain ⟨-, -, heq⟩ := pushComponent_eq_ok_iff.1 hpush
    rw [heq]
    rfl

@[simp] theorem prototype_modifyAs (a : ArrayField) (i : Nat) (f : v.Content → ρ × v.Content) :
    (a.modifyAs v i f).2.prototype = a.prototype := by
  rcases modifyAs_cases a v i f with heq | heq | ⟨c, -, kind, -, heq⟩ <;> rw [heq]
  rfl

@[simp] theorem prototype_modifyAll (a : ArrayField) (f : σ → v.Content → σ × v.Content) (s : σ) :
    (a.modifyAll v f s).2.prototype = a.prototype := by
  rw [modifyAll]
  split <;> rfl

end ArrayOf

/-! ### Trees -/

namespace Kind

/-- In every group of the tree, those inside prototypes and absent fields included, the table of
names is in step with the fields. -/
inductive Tabled : Kind → Prop
  | scalar (v : Scalar) : Tabled (.scalar v)
  | array {a : ArrayField} : Tabled a.prototype.kind → (∀ c ∈ a.elements, Tabled c.kind) →
      Tabled (.array a)
  | group {g : Group} {f : FieldLists} : g.Lists f → (∀ c ∈ g.required, Tabled c.kind) →
      (∀ c ∈ g.optional, Tabled c.kind) → Tabled (.group g)

variable {k : Kind} {a a' : ArrayField} {g g' : Group}

theorem tabled_array_iff :
    (array a).Tabled ↔ a.prototype.kind.Tabled ∧ ∀ c ∈ a.elements, c.kind.Tabled := by
  constructor
  · intro h
    cases h with
    | array hproto helements => exact ⟨hproto, helements⟩
  · rintro ⟨hproto, helements⟩
    exact .array hproto helements

theorem tabled_group_iff : (group g).Tabled ↔ (∃ f, g.Lists f) ∧ g.All Tabled := by
  constructor
  · intro h
    cases h with
    | group hlists hreq hopt => exact ⟨⟨_, hlists⟩, hreq, hopt⟩
  · rintro ⟨⟨f, hlists⟩, hreq, hopt⟩
    exact .group hlists hreq hopt

/-- An array may be given other elements. -/
theorem Tabled.exchange (h : (Kind.array a).Tabled) (hproto : a'.prototype = a.prototype)
    (helements : ∀ c ∈ a'.elements, c.kind.Tabled) : (Kind.array a').Tabled := by
  rw [tabled_array_iff] at h ⊢
  exact ⟨hproto ▸ h.1, helements⟩

theorem Tabled.pushComponent (h : (Kind.array a).Tabled) {c : Component} (hc : c.kind.Tabled)
    (hpush : a.pushComponent c = .ok a') : (Kind.array a').Tabled := by
  obtain ⟨-, -, rfl⟩ := ArrayOf.pushComponent_eq_ok_iff.1 hpush
  refine h.exchange rfl (List.forall_mem_append.2 ⟨?_, List.forall_mem_singleton.2 hc⟩)
  exact (tabled_array_iff.1 h).2

/-! ### Measuring, clearing and reading -/

theorem map_name_set {cs : List Component} {i : Nat} {c : Component} (hc : cs[i]? = some c)
    (kind : Kind) : (cs.set i (c.withKind kind)).map Named.name = cs.map Named.name := by
  induction cs generalizing i with
  | nil => cases hc
  | cons d cs ih =>
      cases i with
      | zero =>
          cases hc
          rfl
      | succ i => simp [ih hc]

@[simp] theorem map_name_measurePresent (marks : List Bool) (cs : List Component) :
    (measurePresent marks cs).2.map Named.name = cs.map Named.name := by
  induction cs generalizing marks with
  | nil => cases marks <;> rfl
  | cons c cs ih =>
      cases marks with
      | nil => rfl
      | cons present marks => cases present <;> simp [measurePresent, ih, Named.withKind]

theorem Tabled.measure (h : k.Tabled) : k.measure.2.Tabled := by
  induction h with
  | scalar v => exact .scalar _
  | @array a hproto helements _ ih =>
      cases hc : a.cachedSize with
      | some n =>
          simp only [Kind.measure, hc]
          exact .array hproto helements
      | none =>
          simp only [Kind.measure, hc, measureAll_eq, List.reverse_nil, List.nil_append]
          exact .array hproto (by simpa [Named.withKind] using ih)
  | @group g f hlists hreq hopt ihreq ihopt =>
      cases hc : g.cachedSize with
      | some n =>
          simp only [Kind.measure, hc]
          exact .group hlists hreq hopt
      | none =>
          simp only [Kind.measure, hc, measureAll_eq, List.reverse_nil, List.nil_append]
          refine tabled_group_iff.2 ⟨hlists.exchange rfl rfl ?_ ?_, ?_, ?_⟩
          · simp [Named.withKind]
          · exact map_name_measurePresent _ _
          · simpa [Named.withKind] using ihreq
          · exact forall_measurePresent fun c hc => ⟨hopt c hc, ihopt c hc⟩

/-- Asking for the size of a node inside changes no name. -/
theorem Tabled.measuredInside {k' : Kind} (hk : k.Tabled) (h : k.MeasuredInside k') :
    k'.Tabled := by
  induction h with
  | here k => exact hk.measure
  | prototype _ ih =>
      rw [tabled_array_iff] at hk ⊢
      exact ⟨ih hk.1, hk.2⟩
  | element hc _ ih =>
      have helements := (tabled_array_iff.1 hk).2
      exact hk.exchange rfl (forall_mem_set helements (ih (helements _ (List.mem_of_getElem? hc))))
  | @required g i c kind hc _ ih =>
      obtain ⟨⟨f, hlists⟩, hreq, hopt⟩ := tabled_group_iff.1 hk
      exact tabled_group_iff.2 ⟨hlists.exchange rfl rfl (map_name_set hc kind) rfl,
        forall_mem_set hreq (ih (hreq _ (List.mem_of_getElem? hc))), hopt⟩
  | @optional g i c kind hc _ ih =>
      obtain ⟨⟨f, hlists⟩, hreq, hopt⟩ := tabled_group_iff.1 hk
      exact tabled_group_iff.2 ⟨hlists.exchange rfl rfl rfl (map_name_set hc kind),
        hreq, forall_mem_set hopt (ih (hopt _ (List.mem_of_getElem? hc)))⟩

theorem Tabled.clear (h : k.Tabled) : k.clear.Tabled := by
  induction h with
  | scalar v => exact .scalar _
  | array hproto _ _ _ => exact .array hproto (List.forall_mem_nil _)
  | group hlists _ _ ihreq ihopt =>
      refine .group hlists.clear ?_ ?_
      · simpa [clearAll_eq, Named.withKind] using ihreq
      · simpa [clearAll_eq, Named.withKind] using ihopt

/-- Reading changes no name, also when it fails. -/
theorem Tabled.read (h : k.Tabled) (s : BitStream) : (k.read s).2.1.Tabled := by
  induction h generalizing s with
  | scalar v =>
      rw [Kind.read]
      exact .scalar _
  | @array a hproto helements ihproto _ =>
      have hold : (Kind.array a).Tabled := .array hproto helements
      rw [read_array]
      rcases a.readCount s with ⟨_ | count, s₁⟩
      · exact hold
      · simp only
        split
        · split
          · exact hold
          · rename_i hcopies
            have hnew := ArrayOf.forall_of_readCopies (P := fun c : Component => c.kind.Tabled)
              (of_readCopy ihproto) (List.forall_mem_nil _) hcopies
            exact hold.exchange rfl hnew.2
        · exact hold
  | @group g f hlists hreq hopt ihreq ihopt =>
      obtain ⟨g', hread, hlists'⟩ := hlists.read_group s
      have hall := GroupOf.All.read (fun c hc => ⟨hreq c hc, ihreq c hc⟩)
        (fun c hc => ⟨hopt c hc, ihopt c hc⟩) (congrArg (fun r => r.2.1) hread)
      rw [hread]
      exact tabled_group_iff.2 ⟨⟨_, hlists'⟩, hall⟩

end Kind

/-- **Tables of names stay in step.**  Whatever operations a component has gone through, in each of
its groups, also inside prototypes and absent fields, the table leads from a name to the field that
carries it and to no other. -/
theorem Kind.Reachable.tabled {k : Kind} (h : k.Reachable) : k.Tabled := by
  induction h with
  | free _ | bounded _ | bits _ | digest _ => exact .scalar _
  | make _ hmake ih =>
      obtain ⟨hproto, -, -, helements⟩ := ArrayOf.eq_of_make hmake
      rw [tabled_array_iff, hproto, helements]
      exact ⟨ih, List.forall_mem_nil _⟩
  | unbounded _ ih => exact .array ih (List.forall_mem_nil _)
  | pushComponent _ _ hpush iha ihc => exact iha.pushComponent ihc hpush
  | push _ _ iha ihnew => exact iha.exchange (ArrayOf.prototype_push ..) ihnew
  | pop _ ih =>
      refine ih.exchange rfl ?_
      intro c hc
      exact (tabled_array_iff.1 ih).2 c (List.dropLast_subset _ hc)
  | modifyElement _ _ iha ihnew => exact iha.exchange (ArrayOf.prototype_modifyAs ..) ihnew
  | modifyAll _ _ iha ihnew => exact iha.exchange (ArrayOf.prototype_modifyAll ..) ihnew
  | empty => exact .group .empty (List.forall_mem_nil _) (List.forall_mem_nil _)
  | @addField g g' c optional _ _ hadd ihg ihc =>
      obtain ⟨⟨f, hlists⟩, hall⟩ := tabled_group_iff.1 ihg
      have halike := hlists.add c optional
      rw [hadd] at halike
      obtain ⟨f', -, hlists'⟩ := halike.exists_ok
      exact tabled_group_iff.2 ⟨⟨f', hlists'⟩, hall.addField ihc hadd⟩
  | @removeField g g' name c _ hremove ih =>
      obtain ⟨⟨f, hlists⟩, hall⟩ := tabled_group_iff.1 ih
      have halike := hlists.remove name
      rw [hremove] at halike
      obtain ⟨r, -, -, hlists'⟩ := halike.exists_ok
      exact tabled_group_iff.2 ⟨⟨r.2, hlists'⟩, hall.removeField hremove⟩
  | @setPresent g g' name present _ hset ih =>
      obtain ⟨⟨f, hlists⟩, hall⟩ := tabled_group_iff.1 ih
      have halike := hlists.setPresent name present
      rw [hset] at halike
      obtain ⟨f', -, hlists'⟩ := halike.exists_ok
      exact tabled_group_iff.2 ⟨⟨f', hlists'⟩, hall.setPresent hset⟩
  -- what is put back in the place of a field has the name of the field
  | modifyField _ _ _ ihg ihreq ihopt =>
      obtain ⟨⟨f, hlists⟩, -⟩ := tabled_group_iff.1 ihg
      exact .group (hlists.modify _ _).2 ihreq ihopt
  | modifyAs _ _ _ ihg ihreq ihopt =>
      obtain ⟨⟨f, hlists⟩, -⟩ := tabled_group_iff.1 ihg
      exact .group (hlists.modifyAs _ _ _).2 ihreq ihopt
  | enable _ _ _ ihg ihreq ihopt =>
      obtain ⟨⟨f, hlists⟩, -⟩ := tabled_group_iff.1 ihg
      exact .group (hlists.enable _ _ _).2 ihreq ihopt
  | read _ _ ih => exact ih.read _
  | clear _ ih => exact ih.clear
  | measure _ hmeasured ih => exact ih.measuredInside hmeasured
  -- parts of what came up
  | prototype _ ih => exact (tabled_array_iff.1 ih).1
  | element _ hc ih => exact (tabled_array_iff.1 ih).2 _ hc
  | requiredField _ hc ih => exact (tabled_group_iff.1 ih).2.1 _ hc
  | optionalField _ hc ih => exact (tabled_group_iff.1 ih).2.2 _ hc

end WireTree
