/-
**Clearing leaves nothing but the layout.**

A component that has been cleared is blank: its leaves are zero or empty, its arrays have no
elements, its optional fields are absent, and the fields behind them are blank as well.  An integer
whose bounds leave zero out is as near to zero as it may be, and so within its bounds.

A blank component has no information besides its layout: two of them that are laid out alike look
the same everywhere, at absent fields and in the tables of names too.  Only prototypes are left
out, since clearing does not enter them, and what is remembered, which cannot be seen.  So whatever
two components of one layout have held, clearing makes them the same.

Main definitions:

* `WireTree.Plan`, `WireTree.Kind.plan` — the layout of a tree with the names of its fields;
* `WireTree.Picture`, `WireTree.Kind.picture` — all that can be seen of a tree outside prototypes;
* `WireTree.Scalar.IsBlank`, `WireTree.Kind.IsBlank` — blank leaves and trees.

Main results:

* `WireTree.Kind.isBlank_clear` — what has been cleared is blank;
* `WireTree.Kind.Reachable.picture_eq` — blank components of one layout look the same;
* `WireTree.Kind.size_clear_le` — clearing does not make a component larger;
* `WireTree.clearing_is_canonical` — **clearing is canonical**.
-/

import WireTree.Proofs.Component.Independence
import WireTree.Proofs.Component.Remembered
import WireTree.Proofs.Component.Safety
import WireTree.Proofs.Component.Tables

set_option relaxedAutoImplicit false
set_option autoImplicit false

namespace WireTree

/-! ### Blank leaves -/

namespace BoundedInt

variable {r r' : BoundedInt}

/-- The value lies within the bounds, and nothing within the bounds is nearer to zero. -/
def IsNearest (r : BoundedInt) : Prop :=
  r.inBounds = true ∧
    ∀ n : Int32, r.lower ≤ n → n ≤ r.upper → r.value.toInt.natAbs ≤ n.toInt.natAbs

theorem isNearest_clear (r : BoundedInt) : r.clear.IsNearest := by
  refine ⟨r.inBounds_clear, ?_⟩
  intro n hlower hupper
  have hle : r.lower.toInt ≤ n.toInt := Int32.le_iff_toInt_le.1 hlower
  have hge : n.toInt ≤ r.upper.toInt := Int32.le_iff_toInt_le.1 hupper
  simp only [clear, Int32.lt_iff_toInt_lt, Int32.toInt_zero]
  split
  · omega
  · split
    · omega
    · simp

/-- The bounds decide which value that is. -/
theorem IsNearest.value_eq (h : r.IsNearest) (h' : r'.IsNearest) (hlower : r.lower = r'.lower)
    (hupper : r.upper = r'.upper) : r.value = r'.value := by
  obtain ⟨hin, hnearest⟩ := h
  obtain ⟨hin', hnearest'⟩ := h'
  simp only [inBounds, Bool.and_eq_true, decide_eq_true_eq] at hin hin'
  have hle := hnearest r'.value (hlower ▸ hin'.1) (hupper ▸ hin'.2)
  have hle' := hnearest' r.value (hlower ▸ hin.1) (hupper ▸ hin.2)
  -- values of opposite signs would have zero between them
  have hzero := hnearest 0
  simp only [Int32.le_iff_toInt_le, Int32.toInt_zero] at hin hin' hzero
  rw [← Int32.toInt_inj]
  rw [← hlower, ← hupper] at hin'
  omega

end BoundedInt

namespace Scalar

variable {u v : Scalar}

/-- Zero, empty, or without a set bit; of integers with bounds, as near to zero as may be. -/
def IsBlank : Scalar → Prop
  | bool b => b = false
  | u8 n => n = 0
  | s8 n => n = 0
  | u16 n => n = 0
  | s16 n => n = 0
  | u32 n => n = 0
  | s32 n => n = 0
  | bounded r => r.IsNearest
  | float x => x.bits = 0
  | text t => t = ""
  | vec2 v => v.x.raw = 0 ∧ v.y.raw = 0
  | vec3 v => v.x.raw = 0 ∧ v.y.raw = 0 ∧ v.z.raw = 0
  | bits b => ∀ i, b.get i = false
  | digest d => d.bytes = Vector.replicate 16 0

theorem isBlank_clear (v : Scalar) : v.clear.IsBlank := by
  cases v with
  | bounded r => exact r.isNearest_clear
  | bits b => exact b.get_clear
  | digest d => exact d.bytes_setBytes _
  | vec2 _ => exact ⟨rfl, rfl⟩
  | vec3 _ => exact ⟨rfl, rfl, rfl⟩
  | _ => rfl

@[simp] theorem layout_clear (v : Scalar) : v.clear.layout = v.layout := by
  cases v <;> rfl

@[simp] theorem clear_clear (v : Scalar) : v.clear.clear = v.clear := by
  cases v with
  | bits b => simp [clear, BitSet.clear]
  | digest d =>
      have hbytes := d.bytes_setBytes (Vector.replicate 16 0)
      exact congrArg digest (if_pos hbytes.symm)
  | _ => rfl

theorem size_clear_le (v : Scalar) : v.clear.size ≤ v.size := by
  cases v with
  | text t => exact Nat.mul_le_mul_left 8 (Nat.succ_le_succ (Nat.zero_le _))
  | _ => exact Nat.le_refl _

/-- Blank leaves of one layout are the same. -/
theorem forget_eq_of_isBlank (hu : u.WellFormed) (hv : v.WellFormed) (hl : u.layout = v.layout)
    (hbu : u.IsBlank) (hbv : v.IsBlank) : u.forget = v.forget := by
  have hvariant := variant_eq_of_layout hl
  cases u <;> cases v <;> cases hvariant
  case bounded.bounded r r' =>
      simp only [layout, Layout.bounded.injEq] at hl
      exact congrArg bounded (BoundedInt.forget_eq_forget_iff.2
        ⟨BoundedInt.IsNearest.value_eq hbu hbv hl.1 hl.2, hl⟩)
  case bits.bits b b' =>
      have hlen : b.len = b'.len := by simpa [layout] using hl
      exact congrArg bits (BitSet.WellFormed.eq_of_clear hu hv hlen hbu hbv)
  case digest.digest d d' =>
      exact congrArg digest (Digest.WellFormed.eq_of_bytes_eq hu hv (hbu.trans hbv.symm))
  case float.float x x' =>
      exact congrArg float (congrArg Binary32.mk (hbu.trans hbv.symm))
  case vec2.vec2 v v' =>
      obtain ⟨⟨x⟩, ⟨y⟩⟩ := v
      obtain ⟨⟨x'⟩, ⟨y'⟩⟩ := v'
      obtain ⟨rfl, rfl⟩ := hbu
      obtain ⟨rfl, rfl⟩ := hbv
      rfl
  case vec3.vec3 v v' =>
      obtain ⟨⟨x⟩, ⟨y⟩, ⟨z⟩⟩ := v
      obtain ⟨⟨x'⟩, ⟨y'⟩, ⟨z'⟩⟩ := v'
      obtain ⟨rfl, rfl, rfl⟩ := hbu
      obtain ⟨rfl, rfl, rfl⟩ := hbv
      rfl
  all_goals simp_all [IsBlank, forget]

end Scalar

/-! ### Layouts with names -/

/-- What is settled about a tree, whatever it holds: the layouts of its leaves, the bounds and the
prototypes of its arrays, and the fields of its groups with their names. -/
inductive Plan where
  /-- A leaf of a layout. -/
  | leaf (layout : Layout)
  /-- An array with bounds on the number of its elements. -/
  | array (minCount maxCount : Nat) (prototype : Plan)
  /-- A group of required and optional fields. -/
  | group (required optional : List (Named Plan))

/-- All that can be seen of a tree outside prototypes, absent fields included: the values, the
elements with the field that counts them, the fields with their marks, and where the table of a
group leads from a name. -/
inductive Picture where
  /-- A leaf. -/
  | leaf (v : Scalar)
  /-- An array with bounds on the number of its elements. -/
  | array (minCount maxCount : Nat) (countField : BoundedInt) (elements : List (Named Picture))
  /-- A group of required and optional fields. -/
  | group (required optional : List (Named Picture)) (marks : BitSet)
      (slot? : String → Option Slot)

namespace Kind

mutual

/-- The layout of a tree with the names of its fields. -/
def plan : Kind → Plan
  | scalar v => .leaf v.layout
  | array a => .array a.minCount a.maxCount (plan a.prototype.kind)
  | group g => .group (planAll g.required) (planAll g.optional)
termination_by structural k => k

/-- The layouts of a list of components with their names. -/
def planAll : List Component → List (Named Plan)
  | [] => []
  | c :: cs => ⟨c.name, plan c.kind⟩ :: planAll cs
termination_by structural cs => cs

end

mutual

/-- What can be seen of a tree. -/
def picture : Kind → Picture
  | scalar v => .leaf v.forget
  | array a => .array a.minCount a.maxCount a.countField.forget (pictureAll a.elements)
  | group g => .group (pictureAll g.required) (pictureAll g.optional) g.indicator g.slot?
termination_by structural k => k

/-- What can be seen of a list of components. -/
def pictureAll : List Component → List (Named Picture)
  | [] => []
  | c :: cs => ⟨c.name, picture c.kind⟩ :: pictureAll cs
termination_by structural cs => cs

end

theorem planAll_eq (cs : List Component) :
    planAll cs = cs.map fun c => ⟨c.name, c.kind.plan⟩ := by
  induction cs with
  | nil => rfl
  | cons c cs ih => simp [planAll, ih]

theorem shapeAll_eq (cs : List Component) :
    shapeAll cs = cs.map fun c => ⟨c.name, c.kind.shape⟩ := by
  induction cs with
  | nil => rfl
  | cons c cs ih => simp [shapeAll, ih]

theorem map_name_planAll (cs : List Component) :
    (planAll cs).map Named.name = cs.map Named.name := by
  rw [planAll_eq, List.map_map]
  rfl

/-- Lists of one plan look the same if their members do. -/
theorem pictureAll_congr {cs cs' : List Component}
    (h : ∀ c ∈ cs, ∀ c' ∈ cs', c'.kind.plan = c.kind.plan → c'.kind.picture = c.kind.picture)
    (hplan : planAll cs' = planAll cs) : pictureAll cs' = pictureAll cs := by
  induction cs generalizing cs' with
  | nil =>
      cases cs' with
      | nil => rfl
      | cons c' cs' => cases hplan
  | cons c cs ih =>
      cases cs' with
      | nil => cases hplan
      | cons c' cs' =>
          simp only [planAll, List.cons.injEq, Named.mk.injEq] at hplan
          obtain ⟨⟨hname, hhead⟩, htail⟩ := hplan
          have hpicture := h c List.mem_cons_self c' List.mem_cons_self hhead
          have hrest := ih (fun d hd d' hd' =>
            h d (List.mem_cons_of_mem _ hd) d' (List.mem_cons_of_mem _ hd')) htail
          rw [pictureAll, pictureAll, hname, hpicture, hrest]

/-! ### Blank trees -/

/-- All leaves are blank, arrays have no elements and count none, and the fields of groups are
blank, the optional ones absent. -/
inductive IsBlank : Kind → Prop
  | scalar {v : Scalar} : v.IsBlank → IsBlank (.scalar v)
  | array {a : ArrayField} : a.elements = [] → a.countField.value = 0 → IsBlank (.array a)
  | group {g : Group} : (∀ c ∈ g.required, IsBlank c.kind) → (∀ c ∈ g.optional, IsBlank c.kind) →
      (∀ i, g.indicator.get i = false) → IsBlank (.group g)

theorem isBlank_scalar_iff {v : Scalar} : (scalar v).IsBlank ↔ v.IsBlank := by
  constructor
  · intro h
    cases h with
    | scalar hv => exact hv
  · exact .scalar

theorem isBlank_array_iff {a : ArrayField} :
    (array a).IsBlank ↔ a.elements = [] ∧ a.countField.value = 0 := by
  constructor
  · intro h
    cases h with
    | array helements hvalue => exact ⟨helements, hvalue⟩
  · rintro ⟨helements, hvalue⟩
    exact .array helements hvalue

theorem isBlank_group_iff {g : Group} :
    (group g).IsBlank ↔ g.All IsBlank ∧ ∀ i, g.indicator.get i = false := by
  constructor
  · intro h
    cases h with
    | group hreq hopt hclear => exact ⟨⟨hreq, hopt⟩, hclear⟩
  · rintro ⟨⟨hreq, hopt⟩, hclear⟩
    exact .group hreq hopt hclear

/-- What has been cleared is blank. -/
theorem isBlank_clear (k : Kind) : k.clear.IsBlank := by
  induction k using Kind.induction with
  | scalar v => exact .scalar v.isBlank_clear
  | array a _ _ => exact .array rfl rfl
  | group g ihreq ihopt =>
      refine .group ?_ ?_ g.indicator.get_clear
      · simpa [clearAll_eq, Named.withKind] using ihreq
      · simpa [clearAll_eq, Named.withKind] using ihopt

/-- The bounds of an array decide what its count field is when it counts no elements. -/
theorem forget_countField_eq {a a' : ArrayField} (ha : a.Consistent) (ha' : a'.Consistent)
    (hmin : a'.minCount = a.minCount) (hmax : a'.maxCount = a.maxCount)
    (hvalue : a.countField.value = 0) (hvalue' : a'.countField.value = 0) :
    a'.countField.forget = a.countField.forget := by
  refine BoundedInt.forget_eq_forget_iff.2 ⟨hvalue'.trans hvalue.symm, ?_, ?_⟩
  · rw [← Int32.toInt_inj, ha'.lower_eq, ha.lower_eq, hmin]
  · rw [← Int32.toInt_inj, ha'.upper_eq, ha.upper_eq, hmax]

/-- Well-formed marks of one number that are all clear are the same. -/
theorem indicator_eq {g g' : Group} (hg : g.Consistent) (hg' : g'.Consistent)
    (hlen : g'.optional.length = g.optional.length) (hclear : ∀ i, g.indicator.get i = false)
    (hclear' : ∀ i, g'.indicator.get i = false) : g'.indicator = g.indicator := by
  refine hg'.indicator_wellFormed.eq_of_clear hg.indicator_wellFormed ?_ hclear' hclear
  rw [hg'.len_indicator, hg.len_indicator, hlen]

/-- Blank components of one layout look the same. -/
theorem Reachable.picture_eq {k k' : Kind} (hk : k.Reachable) (hk' : k'.Reachable)
    (hplan : k'.plan = k.plan) (hblank : k.IsBlank) (hblank' : k'.IsBlank) :
    k'.picture = k.picture := by
  induction k using Kind.induction generalizing k' with
  | scalar v =>
      cases k' with
      | scalar u =>
          rw [isBlank_scalar_iff] at hblank hblank'
          simp only [plan, Plan.leaf.injEq] at hplan
          exact congrArg Picture.leaf (Scalar.forget_eq_of_isBlank (reachable_scalar_iff.1 hk')
            (reachable_scalar_iff.1 hk) hplan hblank' hblank)
      | array a' => cases hplan
      | group g' => cases hplan
  | array a _ _ =>
      cases k' with
      | scalar u => cases hplan
      | array a' =>
          simp only [plan, Plan.array.injEq] at hplan
          obtain ⟨hmin, hmax, -⟩ := hplan
          obtain ⟨helements, hvalue⟩ := isBlank_array_iff.1 hblank
          obtain ⟨helements', hvalue'⟩ := isBlank_array_iff.1 hblank'
          have hcount := forget_countField_eq hk.wellFormed.consistent_array
            hk'.wellFormed.consistent_array hmin hmax hvalue hvalue'
          rw [picture, picture, hmin, hmax, hcount, helements, helements']
      | group g' => cases hplan
  | group g ihreq ihopt =>
      cases k' with
      | scalar u => cases hplan
      | array a' => cases hplan
      | group g' =>
          simp only [plan, Plan.group.injEq] at hplan
          obtain ⟨hreq, hopt⟩ := hplan
          obtain ⟨hall, hclear⟩ := isBlank_group_iff.1 hblank
          obtain ⟨hall', hclear'⟩ := isBlank_group_iff.1 hblank'
          have hnames (cs cs' : List Component) (h : planAll cs' = planAll cs) :
              cs'.map Named.name = cs.map Named.name := by
            rw [← map_name_planAll, h, map_name_planAll]
          have hrequired : pictureAll g'.required = pictureAll g.required := by
            refine pictureAll_congr ?_ hreq
            intro c hc c' hc' hplan
            exact ihreq c hc (.requiredField hk hc) (.requiredField hk' hc') hplan (hall.1 c hc)
              (hall'.1 c' hc')
          have hoptional : pictureAll g'.optional = pictureAll g.optional := by
            refine pictureAll_congr ?_ hopt
            intro c hc c' hc' hplan
            exact ihopt c hc (.optionalField hk hc) (.optionalField hk' hc') hplan (hall.2 c hc)
              (hall'.2 c' hc')
          have hmarks : g'.indicator = g.indicator := by
            refine indicator_eq hk.wellFormed.consistent_group hk'.wellFormed.consistent_group ?_
              hclear hclear'
            simpa using congrArg List.length (hnames _ _ hopt)
          -- where the tables lead is decided by the names
          have hslots : g'.slot? = g.slot? := by
            obtain ⟨f, hlists⟩ := (tabled_group_iff.1 hk.tabled).1
            obtain ⟨f', hlists'⟩ := (tabled_group_iff.1 hk'.tabled).1
            exact hlists.slot?_congr hlists' (hnames _ _ hreq) (hnames _ _ hopt)
          rw [picture, picture, hrequired, hoptional, hmarks, hslots]

/-! ### What clearing keeps -/

@[simp] theorem plan_clear (k : Kind) : k.clear.plan = k.plan := by
  induction k using Kind.induction with
  | scalar v => exact congrArg Plan.leaf v.layout_clear
  | array a _ _ => rfl
  | group g ihreq ihopt =>
      have hreq : planAll (clearAll g.required) = planAll g.required := by
        simpa [planAll_eq, clearAll_eq, Named.withKind] using ihreq
      have hopt : planAll (clearAll g.optional) = planAll g.optional := by
        simpa [planAll_eq, clearAll_eq, Named.withKind] using ihopt
      simp only [clear, plan, hreq, hopt]

@[simp] theorem shape_clear (k : Kind) : k.clear.shape = k.shape := by
  induction k using Kind.induction with
  | scalar v => exact congrArg Shape.leaf v.layout_clear
  | array a _ _ => rfl
  | group g ihreq ihopt =>
      have hreq : shapeAll (clearAll g.required) = shapeAll g.required := by
        simpa [shapeAll_eq, clearAll_eq, Named.withKind] using ihreq
      have hopt : shapeAll (clearAll g.optional) = shapeAll g.optional := by
        simpa [shapeAll_eq, clearAll_eq, Named.withKind] using ihopt
      simp only [clear, shape, hreq, hopt, BitSet.len_clear]

/-- Clearing twice is clearing once. -/
@[simp] theorem clear_clear (k : Kind) : k.clear.clear = k.clear := by
  induction k using Kind.induction with
  | scalar v => exact congrArg Kind.scalar v.clear_clear
  | array a _ _ => rfl
  | group g ihreq ihopt =>
      have hreq : clearAll (clearAll g.required) = clearAll g.required := by
        simpa [clearAll_eq, Named.withKind] using ihreq
      have hopt : clearAll (clearAll g.optional) = clearAll g.optional := by
        simpa [clearAll_eq, Named.withKind] using ihopt
      have hmarks : g.indicator.clear.clear = g.indicator.clear := by
        simp [BitSet.clear]
      simp only [clear, hreq, hopt, hmarks]

/-- Fields of which none is present take no bits. -/
theorem sizePresent_of_absent {marks : List Bool} (h : ∀ present ∈ marks, present = false)
    (cs : List Component) : sizePresent marks cs = 0 := by
  induction cs generalizing marks with
  | nil => cases marks <;> rfl
  | cons c cs ih =>
      cases marks with
      | nil => rfl
      | cons present marks =>
          obtain ⟨rfl, hmarks⟩ := List.forall_mem_cons.1 h
          rw [sizePresent, if_neg Bool.false_ne_true, ih hmarks]

theorem sizeAll_clearAll_le {cs : List Component} (h : ∀ c ∈ cs, c.kind.clear.size ≤ c.kind.size) :
    sizeAll (clearAll cs) ≤ sizeAll cs := by
  induction cs with
  | nil => exact Nat.le_refl 0
  | cons c cs ih =>
      obtain ⟨hc, hcs⟩ := List.forall_mem_cons.1 h
      exact Nat.add_le_add hc (ih hcs)

/-- Clearing does not make a component larger. -/
theorem size_clear_le (k : Kind) : k.clear.size ≤ k.size := by
  induction k using Kind.induction with
  | scalar v => exact v.size_clear_le
  | array a _ _ => exact Nat.le_add_right _ _
  | group g ihreq ihopt =>
      have hreq := sizeAll_clearAll_le ihreq
      have hopt : sizePresent g.indicator.clear.toList (clearAll g.optional) = 0 := by
        refine sizePresent_of_absent ?_ _
        intro present hpresent
        rw [BitSet.toList_clear] at hpresent
        exact List.eq_of_mem_replicate hpresent
      simp only [clear, size, hopt, BitSet.len_clear]
      omega

end Kind

/-! ### Clearing is canonical -/

/-- **Clearing is canonical.**  Whatever two components of one layout hold, they look the same once
they are cleared: at every node that is not inside a prototype, at absent fields and in the tables
of names too.  A component that has come up and is cleared is blank and has kept its layout, its
prototypes and its tables; an integer between two bounds can be cleared wherever it is, since its
bounds are in order; clearing again changes nothing; and the size that a cleared component tells is
at most the size that it told before. -/
theorem clearing_is_canonical {k : Kind} (hk : k.Reachable) :
    (∀ k' : Kind, k'.Reachable → k'.plan = k.plan → k'.clear.picture = k.clear.picture) ∧
    k.clear.IsBlank ∧ k.clear.plan = k.plan ∧ k.clear.shape = k.shape ∧
    (∀ r, (Kind.scalar (.bounded r)).Inside k → r.lower ≤ r.upper) ∧
    k.clear.clear = k.clear ∧ k.clear.measure.1 ≤ k.measure.1 := by
  refine ⟨?_, k.isBlank_clear, k.plan_clear, k.shape_clear, ?_, k.clear_clear, ?_⟩
  · intro k' hk' hplan
    have hplan' : k'.clear.plan = k.clear.plan := by
      rw [k'.plan_clear, k.plan_clear, hplan]
    exact hk.clear.picture_eq hk'.clear hplan' k.isBlank_clear k'.isBlank_clear
  · intro r _
    exact r.lower_le_upper
  · rw [hk.clear.wellFormed.measure_fst, hk.wellFormed.measure_fst]
    exact k.size_clear_le

/-- A group with a text and an optional group, in which there are an integer from three to nine and
an array of one to three truth values: once with the optional group present and an element in the
array, once with it absent and no element. -/
theorem clearing_is_canonical_nested : ∃ k k' : Kind, k.Reachable ∧ k'.Reachable ∧
    k'.plan = k.plan ∧ k.measure.1 = 39 ∧ k'.measure.1 = 17 ∧
    k'.clear.picture = k.clear.picture ∧ k.clear.IsBlank ∧ k.clear.shape = k.shape ∧
    (∃ r, (Kind.scalar (.bounded r)).Inside k ∧ r.lower = 3 ∧ r.upper = 9 ∧ r.lower ≤ r.upper) ∧
    k.clear.clear = k.clear ∧ k.clear.measure.1 ≤ k.measure.1 := by
  have hlevel (n : Int32) : (Kind.scalar (.bounded ⟨n, 3, 9, none, by decide⟩)).Reachable :=
    .bounded (.make (show BoundedInt.make n 3 9 = _ from rfl))
  have hbool (b : Bool) : (Kind.scalar (.bool b)).Reachable := .free trivial
  have htext (t : String) : (Kind.scalar (.text t)).Reachable := .free trivial
  have hempty : (Kind.array ⟨⟨none, .scalar (.bool false)⟩, 1, 3, ⟨0, 1, 3, none, by decide⟩, [],
      none⟩).Reachable :=
    .make (hbool false) (show ArrayOf.make ⟨none, .scalar (.bool false)⟩ 1 3 = _ from rfl)
  have hone := Kind.Reachable.pushComponent hempty (hbool true)
    (show ArrayOf.pushComponent _ ⟨none, _⟩ = _ from rfl)
  have htree (n : Int32) (t : String) {list : Kind} (hlist : list.Reachable) :=
    Kind.Reachable.addField (.addField .empty (htext t)
      (show GroupOf.addField _ ⟨some "title", _⟩ false = _ from rfl))
      (Kind.Reachable.addField (.addField .empty (hlevel n)
        (show GroupOf.addField _ ⟨some "level", _⟩ false = _ from rfl)) hlist
        (show GroupOf.addField _ ⟨some "list", _⟩ false = _ from rfl))
      (show GroupOf.addField _ ⟨some "extra", _⟩ true = _ from rfl)
  have hk := Kind.Reachable.setPresent (htree 7 "abc" hone)
    (show GroupOf.setPresent _ "extra" true = _ from rfl)
  have hk' := htree 4 "a" hempty
  obtain ⟨hsame, hblank, -, hshape, hbounds, htwice, hsize⟩ := clearing_is_canonical hk
  refine ⟨_, _, hk, hk', rfl, rfl, rfl, hsame _ hk' rfl, hblank, hshape,
    ⟨⟨7, 3, 9, none, by decide⟩, ?inside, rfl, rfl, hbounds _ ?inside⟩, htwice, hsize⟩
  exact .deeper (.tail _ (.head _)) (.deeper (.head _) .here)

end WireTree
