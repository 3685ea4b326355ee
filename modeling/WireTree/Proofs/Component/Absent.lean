/-
**Absent fields do not leak.**

What stands in an optional field that is not marked present has no influence, neither on the size
of the tree nor on what is written, however deep in the tree the field is and whatever it holds:
other values, another layout, another variant, or contents that could not be written at all.  A
reader takes its marks from the stream.  As long as these do not name a field in which two trees
differ, it does not see the difference either, and the field stays as it was in each of the trees.

The two directions come to the fields in different ways, by the marks that are there and by the
marks just read.  So what is said of reading assumes nothing of the old marks: that two fields named
by the new marks are alike follows from what the new marks do not name.

Main definitions:

* `WireTree.Kind.SameButAbsent` — trees that are the same but for what stands in absent fields;
* `WireTree.Kind.MarksNoDifference` — no marks that are read name a field in which two trees differ.

Main results:

* `WireTree.Kind.sameButAbsent_setFieldAt` — anything may stand in an absent field;
* `WireTree.Kind.SameButAbsent.size_eq`, `WireTree.Kind.SameButAbsent.write_eq` — the size, and
  writing;
* `WireTree.Kind.SameButAbsent.readsEqually` — reading;
* `WireTree.absent_fields_do_not_leak` — **absent fields do not leak**.
-/

import WireTree.Proofs.Component.Independence
import WireTree.Proofs.Component.Places

set_option relaxedAutoImplicit false
set_option autoImplicit false

namespace WireTree

/-! ### Leaves -/

namespace Scalar

variable {u v : Scalar}

@[simp] theorem size_forget (v : Scalar) : v.forget.size = v.size := by cases v <;> rfl

@[simp] theorem layout_forget (v : Scalar) : v.forget.layout = v.layout := by cases v <;> rfl

/-- A width that is remembered makes no difference to what is written. -/
theorem WellFormed.write_forget (hv : v.WellFormed) (s : BitStream) :
    v.forget.write s = v.write s := by
  cases v with
  | bounded r =>
      have hwidth : r.forget.width = r.width := (BoundedInt.WellFormed.width_eq hv).symm
      have hcells : (bounded r.forget).cells = (bounded r).cells := by
        rw [cells, cells, hwidth]
        rfl
      have hmeasure : (bounded r.forget).measure.1 = (bounded r).measure.1 := hwidth
      simp only [write, forget, hcells]
      rw [hmeasure]
  | _ => rfl

end Scalar

/-! ### Arrays of the same bounds -/

namespace ArrayOf

variable {a b : ArrayField}

theorem admits_congr (hmin : a.minCount = b.minCount) (hmax : a.maxCount = b.maxCount)
    (count : Nat) : a.admits count = b.admits count := by
  rw [admits, admits, hmin, hmax]

theorem countOutOfRange_congr (hmin : a.minCount = b.minCount) (hmax : a.maxCount = b.maxCount)
    (count : Nat) : a.countOutOfRange count = b.countOutOfRange count := by
  rw [countOutOfRange, countOutOfRange, hmin, hmax]

theorem Consistent.width_congr (ha : a.Consistent) (hb : b.Consistent)
    (hmin : a.minCount = b.minCount) (hmax : a.maxCount = b.maxCount) :
    a.countField.width = b.countField.width := by
  rw [ha.width_eq, hb.width_eq, hmin, hmax]

/-- The count field follows the number of elements, so it is no difference of its own. -/
theorem Consistent.offset_congr (ha : a.Consistent) (hb : b.Consistent)
    (hmin : a.minCount = b.minCount) (hlen : a.len = b.len) :
    a.countField.offset = b.countField.offset := by
  have hvalue : a.countField.value = b.countField.value := by
    rw [← Int32.toInt_inj, ha.value_eq, hb.value_eq, hlen]
  rw [BoundedInt.offset, BoundedInt.offset, hvalue, ha.lower_eq_ofNat, hb.lower_eq_ofNat, hmin]

end ArrayOf

/-! ### Lists of fields -/

namespace Kind

theorem marked_replicate {α : Type} (cs : List α) :
    marked (List.replicate cs.length true) cs = cs := by
  induction cs with
  | nil => rfl
  | cons c cs ih => exact congrArg (c :: ·) ih

theorem sizeAll_eq_sizePresent (cs : List Component) :
    sizeAll cs = sizePresent (List.replicate cs.length true) cs := by
  rw [sizePresent_eq_marked, marked_replicate]

theorem writeAll_eq_writePresent (cs : List Component) (n : Nat) (s : BitStream) :
    writeAll cs n s = writePresent (List.replicate cs.length true) cs n s := by
  rw [writePresent_eq, marked_replicate]

/-- Two lists of fields of the same names, in which `R` relates what the fields with a mark hold. -/
inductive MarkedAlike (R : Kind → Kind → Prop) :
    List Bool → List Component → List Component → Prop
  | nil : MarkedAlike R [] [] []
  | absent {marks : List Bool} {c d : Component} {cs ds : List Component} : c.name = d.name →
      MarkedAlike R marks cs ds → MarkedAlike R (false :: marks) (c :: cs) (d :: ds)
  | present {marks : List Bool} {c d : Component} {cs ds : List Component} : c.name = d.name →
      R c.kind d.kind → MarkedAlike R marks cs ds →
      MarkedAlike R (true :: marks) (c :: cs) (d :: ds)

variable {R Q : Kind → Kind → Prop} {marks marks' : List Bool} {cs ds : List Component}

namespace MarkedAlike

theorem length_marks (h : MarkedAlike R marks cs ds) : marks.length = cs.length := by
  induction h with
  | nil => rfl
  | absent _ _ ih => exact congrArg (· + 1) ih
  | present _ _ _ ih => exact congrArg (· + 1) ih

theorem length_eq (h : MarkedAlike R marks cs ds) : cs.length = ds.length := by
  induction h with
  | nil => rfl
  | absent _ _ ih => exact congrArg (· + 1) ih
  | present _ _ _ ih => exact congrArg (· + 1) ih

theorem all {n : Nat} (h : MarkedAlike R (List.replicate n true) cs ds) :
    MarkedAlike R (List.replicate cs.length true) cs ds := by
  have hlen := h.length_marks
  rw [List.length_replicate] at hlen
  rwa [hlen] at h

theorem imp (h : MarkedAlike R marks cs ds)
    (himp : ∀ c ∈ cs, ∀ d ∈ ds, R c.kind d.kind → Q c.kind d.kind) :
    MarkedAlike Q marks cs ds := by
  induction h with
  | nil => exact .nil
  | absent hname _ ih =>
      refine .absent hname (ih ?_)
      intro c hc d hd
      exact himp c (.tail _ hc) d (.tail _ hd)
  | present hname hR _ ih =>
      refine .present hname (himp _ (.head _) _ (.head _) hR) (ih ?_)
      intro c hc d hd
      exact himp c (.tail _ hc) d (.tail _ hd)

/-- Other marks, if the fields that they name are related as well. -/
theorem of_marks (h : MarkedAlike R marks cs ds) (hlen : marks'.length = cs.length)
    (hQ : ∀ (i : Nat) (c d : Component), cs[i]? = some c → ds[i]? = some d →
      marks'[i]? = some true → Q c.kind d.kind) : MarkedAlike Q marks' cs ds := by
  induction h generalizing marks' with
  | nil =>
      obtain rfl := List.length_eq_zero_iff.1 hlen
      exact .nil
  | absent hname _ ih | present hname _ _ ih =>
      rcases marks' with _ | ⟨mark, marks'⟩
      · cases hlen
      · have hrest := ih (Nat.succ.inj hlen) fun i => hQ (i + 1)
        cases mark with
        | false => exact .absent hname hrest
        | true => exact .present hname (hQ 0 _ _ rfl rfl rfl) hrest

theorem refl (hlen : marks.length = cs.length) (hR : ∀ c ∈ cs, R c.kind c.kind) :
    MarkedAlike R marks cs cs := by
  induction cs generalizing marks with
  | nil =>
      obtain rfl := List.length_eq_zero_iff.1 hlen
      exact .nil
  | cons c cs ih =>
      obtain ⟨hc, hcs⟩ := List.forall_mem_cons.1 hR
      rcases marks with _ | ⟨_ | _, marks⟩
      · cases hlen
      · exact .absent rfl (ih (Nat.succ.inj hlen) hcs)
      · exact .present rfl hc (ih (Nat.succ.inj hlen) hcs)

/-- A field without a mark may hold anything. -/
theorem set (h : MarkedAlike R marks cs ds) {i : Nat} {d : Component} (hd : ds[i]? = some d)
    (hmark : marks[i]? ≠ some true) (kind : Kind) :
    MarkedAlike R marks cs (ds.set i (d.withKind kind)) := by
  induction h generalizing i with
  | nil => cases hd
  | absent hname hrest ih =>
      cases i with
      | zero =>
          cases hd
          exact .absent hname hrest
      | succ i => exact .absent hname (ih hd hmark)
  | present hname hR _ ih =>
      cases i with
      | zero => exact absurd rfl hmark
      | succ i => exact .present hname hR (ih hd hmark)

theorem replicate {c d : Component} (hname : c.name = d.name) (hR : R c.kind d.kind) (n : Nat) :
    MarkedAlike R (List.replicate n true) (List.replicate n c) (List.replicate n d) := by
  induction n with
  | zero => exact .nil
  | succ n ih => exact .present hname hR ih

/-- The marked fields take the same room together if each of them does. -/
theorem sizePresent_eq (h : MarkedAlike R marks cs ds)
    (hsize : ∀ c ∈ cs, ∀ d ∈ ds, R c.kind d.kind → c.kind.size = d.kind.size) :
    sizePresent marks cs = sizePresent marks ds := by
  have hsizes : MarkedAlike (fun k k' => k.size = k'.size) marks cs ds := h.imp hsize
  clear h hsize
  induction hsizes with
  | nil => rfl
  | absent _ _ ih => exact congrArg (0 + ·) ih
  | present _ hsize _ ih => rw [sizePresent, sizePresent, hsize, ih]

theorem sizeAll_eq (h : MarkedAlike R (List.replicate cs.length true) cs ds)
    (hsize : ∀ c ∈ cs, ∀ d ∈ ds, R c.kind d.kind → c.kind.size = d.kind.size) :
    sizeAll cs = sizeAll ds := by
  rw [sizeAll_eq_sizePresent, sizeAll_eq_sizePresent, ← h.length_eq]
  exact h.sizePresent_eq hsize

/-- The marked fields are written alike if each of them is. -/
theorem writePresent_eq (h : MarkedAlike R marks cs ds)
    (hwrite : ∀ c ∈ cs, ∀ d ∈ ds, R c.kind d.kind → ∀ s, c.kind.write s = d.kind.write s)
    (n : Nat) (s : BitStream) : writePresent marks cs n s = writePresent marks ds n s := by
  have hwrites : MarkedAlike (fun k k' => ∀ s, k.write s = k'.write s) marks cs ds := h.imp hwrite
  clear h hwrite
  induction hwrites generalizing n s with
  | nil => rfl
  | absent _ _ ih => exact ih n s
  | present _ hwrite _ ih => simp only [writePresent, hwrite, ih]

theorem writeAll_eq (h : MarkedAlike R (List.replicate cs.length true) cs ds)
    (hwrite : ∀ c ∈ cs, ∀ d ∈ ds, R c.kind d.kind → ∀ s, c.kind.write s = d.kind.write s)
    (n : Nat) (s : BitStream) : writeAll cs n s = writeAll ds n s := by
  rw [writeAll_eq_writePresent, writeAll_eq_writePresent, ← h.length_eq]
  exact h.writePresent_eq hwrite n s

end MarkedAlike

/-! ### Trees -/

/-- The trees are the same but for what stands in optional fields without a mark, at any depth, and
for what is remembered. -/
inductive SameButAbsent : Kind → Kind → Prop
  | scalar {u v : Scalar} : u.forget = v.forget → SameButAbsent (.scalar u) (.scalar v)
  | array {a b : ArrayField} : a.minCount = b.minCount → a.maxCount = b.maxCount →
      a.prototype.name = b.prototype.name → SameButAbsent a.prototype.kind b.prototype.kind →
      MarkedAlike SameButAbsent (List.replicate a.elements.length true) a.elements b.elements →
      SameButAbsent (.array a) (.array b)
  | group {f g : Group} : f.slots = g.slots → f.indicator = g.indicator →
      MarkedAlike SameButAbsent (List.replicate f.required.length true) f.required g.required →
      MarkedAlike SameButAbsent f.indicator.toList f.optional g.optional →
      SameButAbsent (.group f) (.group g)

variable {k k' : Kind}

theorem SameButAbsent.refl (hk : k.WellFormed) : k.SameButAbsent k := by
  induction hk with
  | scalar _ => exact .scalar rfl
  | array _ _ _ ihproto ih =>
      exact .array rfl rfl rfl ihproto (.refl List.length_replicate ih)
  | group hcons _ _ ihreq ihopt =>
      refine .group rfl rfl (.refl List.length_replicate ihreq) (.refl ?_ ihopt)
      rw [BitSet.length_toList, hcons.len_indicator]

/-- Anything may stand in an absent field. -/
theorem sameButAbsent_setFieldAt {g : Group} (hg : (group g).WellFormed) {i : Nat}
    {c : Component} (hc : g.optional[i]? = some c) (habsent : g.indicator.get i = false)
    (kind : Kind) :
    (group g).SameButAbsent (group (g.setFieldAt (.optional i) (c.withKind kind))) := by
  cases SameButAbsent.refl hg with
  | group _ _ hrequired hoptional =>
      refine .group rfl rfl hrequired (hoptional.set hc ?_ kind)
      intro hmark
      rw [(g.indicator.getElem?_toList i).1 hmark] at habsent
      cases habsent

/-- Absent fields take no room. -/
theorem SameButAbsent.size_eq (h : k.SameButAbsent k') (hk : k.WellFormed) (hk' : k'.WellFormed) :
    k.size = k'.size := by
  induction hk generalizing k' with
  | scalar _ =>
      cases h with
      | scalar hforget => rw [size, size, ← Scalar.size_forget, hforget, Scalar.size_forget]
  | array hcons _ _ _ ih =>
      cases h with
      | array hmin hmax _ _ helements =>
          cases hk' with
          | array hcons' _ hwf' =>
              have hsizes := helements.sizeAll_eq fun c hc d hd hcd => ih c hc hcd (hwf' d hd)
              rw [size, size, hsizes, hcons.lower_eq_ofNat, hcons'.lower_eq_ofNat,
                hcons.upper_eq_ofNat, hcons'.upper_eq_ofNat, hmin, hmax]
  | group _ _ _ ihreq ihopt =>
      cases h with
      | group _ hind hrequired hoptional =>
          cases hk' with
          | group _ hreq' hopt' =>
              have hsizes := hrequired.sizeAll_eq fun c hc d hd hcd => ihreq c hc hcd (hreq' d hd)
              have hsizes' := hoptional.sizePresent_eq fun c hc d hd hcd =>
                ihopt c hc hcd (hopt' d hd)
              rw [size, size, hsizes, ← hind, hsizes']

/-- Absent fields are not written. -/
theorem SameButAbsent.write_eq (h : k.SameButAbsent k') (hk : k.WellFormed) (hk' : k'.WellFormed)
    (s : BitStream) : k.write s = k'.write s := by
  induction hk generalizing k' s with
  | scalar hv =>
      cases h with
      | scalar hforget =>
          cases hk' with
          | scalar hv' => rw [write, write, ← hv.write_forget, hforget, hv'.write_forget]
  | @array a hcons _ _ _ ih =>
      cases h with
      | @array _ b hmin hmax _ _ helements =>
          cases hk' with
          | array hcons' _ hwf' =>
              have hlen : a.len = b.len := helements.length_eq
              have hwrite := helements.writeAll_eq fun c hc d hd hcd => ih c hc hcd (hwf' d hd)
              rw [write, write, hlen, ArrayOf.admits_congr hmin hmax,
                ArrayOf.countOutOfRange_congr hmin hmax, hcons.offset_congr hcons' hmin hlen,
                hcons.width_congr hcons' hmin hmax]
              simp only [hwrite]
  | group _ _ _ ihreq ihopt =>
      cases h with
      | group _ hind hrequired hoptional =>
          cases hk' with
          | group _ hreq' hopt' =>
              have hwrite := hrequired.writeAll_eq fun c hc d hd hcd => ihreq c hc hcd (hreq' d hd)
              have hwrite' := hoptional.writePresent_eq fun c hc d hd hcd =>
                ihopt c hc hcd (hopt' d hd)
              simp only [write, hwrite, ← hind, hwrite']

/-! ### Differences -/

/-- In the optional field of an index of the group that a path leads to the trees differ, and not
only in what stands in absent fields further down. -/
def Differs (k k' : Kind) (path : List Place) (i : Nat) : Prop :=
  ∃ c d, k.optionalAt? path i = some c ∧ k'.optionalAt? path i = some d ∧
    ¬ c.kind.SameButAbsent d.kind

/-- No marks that are decoded when `k` or `k'` is read from `s` name a field in which they
differ. -/
def MarksNoDifference (k k' : Kind) (s : BitStream) : Prop :=
  ∀ path i, k.Marks s path i ∨ k'.Marks s path i → ¬ k.Differs k' path i

namespace MarksNoDifference

variable {s t : BitStream} {place : Place} {c d : Component}

/-- A difference further down is a difference of the whole trees. -/
theorem inside (h : k.MarksNoDifference k' s) (hstep : k.StepsInto s place c t)
    (hstep' : k'.StepsInto s place d t) : c.kind.MarksNoDifference d.kind t := by
  rintro path i hmarks ⟨c', d', hc', hd', hdiff⟩
  refine h (place :: path) i (hmarks.imp (.inside hstep) (.inside hstep')) ⟨c', d', ?_, ?_, hdiff⟩
  · rw [optionalAt?_cons, hstep.child_eq]
    exact hc'
  · rw [optionalAt?_cons, hstep'.child_eq]
    exact hd'

/-- The fields that decoded marks name are the same but for absent fields. -/
theorem sameButAbsent {f g : Group} {indicator : BitSet}
    (h : (group f).MarksNoDifference (group g) s) (hdecodes : (group f).Decodes s [] indicator)
    {i : Nat} (hc : f.optional[i]? = some c) (hd : g.optional[i]? = some d)
    (hmark : indicator.get i = true) : c.kind.SameButAbsent d.kind := by
  refine Classical.byContradiction ?_
  intro hdiff
  exact h [] i (.inl ⟨indicator, hdecodes, hmark⟩) ⟨c, d, hc, hd, hdiff⟩

end MarksNoDifference

/-! ### Reading -/

/-- Two reads with the same result, which leave the same stream; what they leave otherwise is
related by `R`, also if they fail. -/
def EqualRead {α : Type} (R : α → α → Prop) (p q : Outcome (α × BitStream) Nat) : Prop :=
  ∃ r x y s, p = (r, x, s) ∧ q = (r, y, s) ∧ R x y

/-- Trees are read equally from every stream that marks no difference. -/
def ReadsEqually (k k' : Kind) : Prop :=
  ∀ s, k.MarksNoDifference k' s → EqualRead SameButAbsent (k.read s) (k'.read s)

theorem readPresent_cons_of_error {c : Component} {kind : Kind} {s t : BitStream} {e : WireError}
    (h : c.kind.read s = (.error e, kind, t)) :
    readPresent (true :: marks) (c :: cs) s = (.error e, c.withKind kind :: cs, t) := by
  rw [readPresent, if_pos rfl, h]

theorem readPresent_cons_of_ok {c : Component} {kind : Kind} {s t t' : BitStream} {n : Nat}
    {r : Except WireError Nat} {cs' : List Component} (h : c.kind.read s = (.ok n, kind, t))
    (hrest : readPresent marks cs t = (r, cs', t')) : readPresent (true :: marks) (c :: cs) s =
      (r.map (n + ·), c.withKind kind :: cs', t') := by
  rw [readPresent, if_pos rfl, h]
  simp only [hrest]
  cases r <;> rfl

/-- Lists of fields are read equally by the same marks, if the marks name no difference in them or
further down. -/
theorem MarkedAlike.equalRead
    (h : MarkedAlike (fun k k' => k.SameButAbsent k' ∧ k.ReadsEqually k') marks cs ds)
    {s : BitStream} (hmarks : ∀ i c d t, ComesTo marks cs s i c t → ComesTo marks ds s i d t →
      c.kind.MarksNoDifference d.kind t) :
    EqualRead (MarkedAlike SameButAbsent marks) (readPresent marks cs s)
      (readPresent marks ds s) := by
  induction h generalizing s with
  | nil => exact ⟨_, _, _, s, rfl, rfl, .nil⟩
  | @absent marks c d cs ds hname _ ih =>
      obtain ⟨r, cs', ds', t, h₁, h₂, hrest⟩ :=
        ih fun i c d t hc hd => hmarks (i + 1) c d t hc.absent hd.absent
      refine ⟨r, c :: cs', d :: ds', t, ?_, ?_, .absent hname hrest⟩
      · rw [readPresent, if_neg Bool.false_ne_true, h₁]
      · rw [readPresent, if_neg Bool.false_ne_true, h₂]
  | @present marks c d cs ds hname hkind hold ih =>
      obtain ⟨r, x, y, t, hx, hy, hxy⟩ := hkind.2 _ (hmarks 0 c d s .here .here)
      cases r with
      | error e =>
          have hrest := hold.imp fun _ _ _ _ hcd => hcd.1
          exact ⟨_, c.withKind x :: cs, d.withKind y :: ds, t, readPresent_cons_of_error hx,
            readPresent_cons_of_error hy, .present hname hxy hrest⟩
      | ok n =>
          obtain ⟨r, cs', ds', t', h₁, h₂, hrest⟩ :=
            ih fun i c d t hc hd => hmarks (i + 1) c d t (.present hx hc) (.present hy hd)
          exact ⟨_, c.withKind x :: cs', d.withKind y :: ds', t', readPresent_cons_of_ok hx h₁,
            readPresent_cons_of_ok hy h₂, .present hname hxy hrest⟩

/-- Leaves of the same value are read equally, and keep the same value if they cannot be read. -/
theorem equalRead_scalar {u v : Scalar} (hu : u.WellFormed) (hv : v.WellFormed)
    (h : u.forget = v.forget) (s : BitStream) :
    EqualRead SameButAbsent ((scalar u).read s) ((scalar v).read s) := by
  have hlayout : u.layout = v.layout := by
    rw [← Scalar.layout_forget, h, Scalar.layout_forget]
  rw [read, read]
  rcases (Scalar.sameRead hu hv hlayout s).cases with
    ⟨e, u', v', s', h₁, h₂⟩ | ⟨n, u', v', s', h₁, h₂, hforget⟩ <;> rw [h₁, h₂]
  · obtain rfl := Scalar.eq_of_read_error h₁
    obtain rfl := Scalar.eq_of_read_error h₂
    exact ⟨_, _, _, s', rfl, rfl, .scalar h⟩
  · exact ⟨_, _, _, s', rfl, rfl, .scalar hforget⟩

/-- Arrays of the same bounds are read equally if their prototypes are. -/
theorem equalRead_array {a b : ArrayField} {s : BitStream} (ha : a.Consistent) (hb : b.Consistent)
    (h : (array a).SameButAbsent (array b))
    (hproto : a.prototype.kind.ReadsEqually b.prototype.kind)
    (hmarks : (array a).MarksNoDifference (array b) s) :
    EqualRead SameButAbsent ((array a).read s) ((array b).read s) := by
  have hold := h
  cases h with
  | array hmin hmax hname hsame _ =>
      have hcount := ArrayOf.readCount_congr ha hb hmin hmax s
      have hadmits := ArrayOf.admits_congr hmin hmax
      rw [read_array, read_array, hcount]
      rcases hb' : b.readCount s with ⟨e | count, s₁⟩ <;> rw [hb'] at hcount
      · exact ⟨_, _, _, s₁, rfl, rfl, hold⟩
      · simp only [ha.width_congr hb hmin hmax, hadmits, ArrayOf.countOutOfRange_congr hmin hmax]
        by_cases hadm : b.admits count = true
        · -- each tree reads copies of its own prototype
          have hadm' := (hadmits count).trans hadm
          have hcopies : EqualRead (MarkedAlike SameButAbsent (List.replicate count true))
              (readAll (List.replicate count a.prototype) s₁)
              (readAll (List.replicate count b.prototype) s₁) := by
            rw [readAll_eq, readAll_eq, List.length_replicate, List.length_replicate]
            refine (MarkedAlike.replicate hname ⟨hsame, hproto⟩ count).equalRead ?_
            intro i c d t hc hd
            exact hmarks.inside (.copy hcount hadm' hc) (.copy hb' hadm hd)
          obtain ⟨r, cs, ds, s₂, h₁, h₂, hnew⟩ := hcopies
          rw [if_pos hadm, if_pos hadm, ArrayOf.readCopies_eq, ArrayOf.readCopies_eq, h₁, h₂]
          cases r with
          | error e => exact ⟨_, _, _, s₂, rfl, rfl, hold⟩
          | ok m => exact ⟨_, _, _, s₂, rfl, rfl, .array hmin hmax hname hsame hnew.all⟩
        · rw [if_neg hadm, if_neg hadm]
          exact ⟨_, _, _, s₁, rfl, rfl, hold⟩

/-- Groups are read equally if the fields in which they do not differ are. -/
theorem equalRead_group {f g : Group} {s : BitStream} (hf : f.Consistent)
    (h : (group f).SameButAbsent (group g))
    (hreq : ∀ c ∈ f.required, ∀ d ∈ g.required, c.kind.SameButAbsent d.kind →
      c.kind.ReadsEqually d.kind)
    (hopt : ∀ c ∈ f.optional, ∀ d ∈ g.optional, c.kind.SameButAbsent d.kind →
      c.kind.ReadsEqually d.kind)
    (hmarks : (group f).MarksNoDifference (group g) s) :
    EqualRead SameButAbsent ((group f).read s) ((group g).read s) := by
  cases h with
  | group hslots hind hrequired hoptional =>
      have hfirst : EqualRead (MarkedAlike SameButAbsent (List.replicate f.required.length true))
          (readAll f.required s) (readAll g.required s) := by
        rw [readAll_eq, readAll_eq, ← hrequired.length_eq]
        refine (hrequired.imp fun c hc d hd hcd => ⟨hcd, hreq c hc d hd hcd⟩).equalRead ?_
        intro i c d t hc hd
        rw [hrequired.length_eq] at hd
        exact hmarks.inside (.required hc) (.required hd)
      obtain ⟨r, fs, gs, s₁, h₁, h₂, hrequired'⟩ := hfirst
      rw [read, read]
      simp only [GroupOf.forget, h₁, h₂, ← hind]
      cases r with
      | error e =>
          refine ⟨_, _, _, s₁, rfl, rfl, ?_⟩
          exact .group hslots rfl hrequired'.all hoptional
      | ok n =>
          simp only
          rcases hm : f.indicator.read s₁ with ⟨e | m, indicator, s₂⟩
          · obtain rfl := BitSet.eq_of_read_error hm
            refine ⟨_, _, _, s₂, rfl, rfl, ?_⟩
            exact .group hslots rfl hrequired'.all hoptional
          · -- what the new marks name is the same, whatever the old marks name
            have hnamed : MarkedAlike (fun k k' => k.SameButAbsent k' ∧ k.ReadsEqually k')
                indicator.toList f.optional g.optional := by
              have hlen := f.indicator.len_read s₁
              rw [hm] at hlen
              refine hoptional.of_marks ?_ ?_
              · rw [BitSet.length_toList, ← hf.len_indicator]
                exact hlen
              · intro i c d hc hd hmark
                have hcd := hmarks.sameButAbsent (.here h₁ hm) hc hd
                  ((indicator.getElem?_toList i).1 hmark)
                exact ⟨hcd, hopt c (List.mem_of_getElem? hc) d (List.mem_of_getElem? hd) hcd⟩
            have hm' := hm
            rw [hind] at hm'
            obtain ⟨r, fs', gs', s₃, h₃, h₄, hoptional'⟩ := hnamed.equalRead fun i c d t hc hd =>
              hmarks.inside (.optional h₁ hm hc) (.optional h₂ hm' hd)
            simp only [h₃, h₄]
            cases r with
            | error e =>
                refine ⟨_, _, _, s₃, rfl, rfl, ?_⟩
                exact .group hslots rfl hrequired'.all hoptional'
            | ok l =>
                refine ⟨_, _, _, s₃, rfl, rfl, ?_⟩
                exact .group hslots rfl hrequired'.all hoptional'

/-- Trees that are the same but for absent fields are read equally. -/
theorem SameButAbsent.readsEqually (h : k.SameButAbsent k') (hk : k.WellFormed)
    (hk' : k'.WellFormed) : k.ReadsEqually k' := by
  -- on the first tree and not on what it has in common with the second: the new marks may name
  -- fields that the old ones do not
  induction hk generalizing k' with
  | scalar hv =>
      intro s _
      cases h with
      | scalar hforget =>
          cases hk' with
          | scalar hv' => exact equalRead_scalar hv hv' hforget s
  | array hcons _ _ ih _ =>
      intro s hmarks
      have hsame := h
      cases h with
      | array _ _ _ hproto _ =>
          cases hk' with
          | array hcons' hproto' _ =>
              exact equalRead_array hcons hcons' hsame (ih hproto hproto') hmarks
  | group hcons _ _ ihreq ihopt =>
      intro s hmarks
      have hsame := h
      cases h with
      | group _ _ _ _ =>
          cases hk' with
          | group _ hreq' hopt' =>
              refine equalRead_group hcons hsame ?_ ?_ hmarks
              · exact fun c hc d hd hcd => ihreq c hc hcd (hreq' d hd)
              · exact fun c hc d hd hcd => ihopt c hc hcd (hopt' d hd)

end Kind

/-! ### An absent leaf in an array -/

/-- A group of one optional leaf, which is absent. -/
def Kind.note (v : Scalar) : Kind :=
  .group ⟨[], [⟨some "note", .scalar v⟩], .replicate 1, [("note", .optional 0)], none⟩

/-- An array of one such group. -/
def Kind.notes (v : Scalar) : Kind :=
  .array ⟨⟨none, note v⟩, 1, 1, ⟨1, 1, 1, none, by decide⟩, [⟨none, note v⟩], none⟩

theorem Kind.reachable_note {v : Scalar} (hv : v.IsFree) : (note v).Reachable :=
  .addField .empty (.free hv) (show GroupOf.addField _ ⟨some "note", _⟩ true = _ from rfl)

theorem Kind.reachable_notes {v : Scalar} (hv : v.IsFree) : (notes v).Reachable := by
  have hempty := Kind.Reachable.make (reachable_note hv)
    (show ArrayOf.make ⟨none, _⟩ 1 1 = _ from rfl)
  exact .pushComponent hempty (reachable_note hv)
    (show ArrayOf.pushComponent _ ⟨none, _⟩ = _ from rfl)

theorem Kind.sameButAbsent_notes {u : Scalar} (hu : u.IsFree) (v : Scalar) :
    (notes u).SameButAbsent (notes v) := by
  have habsent : (BitSet.replicate 1).get 0 = false := by decide
  have hnote : (note u).SameButAbsent (note v) :=
    sameButAbsent_setFieldAt (i := 0) (c := ⟨some "note", .scalar u⟩)
      (reachable_note hu).wellFormed rfl habsent (.scalar v)
  exact .array rfl rfl rfl hnote (.present rfl hnote .nil)

/-- All that is read of the array is the mark of one group, which is clear. -/
theorem Kind.not_marks_notes (v : Scalar) (path : List Place) (i : Nat) :
    ¬ (notes v).Marks (BitStream.ofBytes #[0]) path i := by
  have hbits : ((BitSet.replicate 1).withWords [(BitStream.ofBytes #[0]).peek 1]).toList =
      [false] := by decide
  have hclear (i : Nat) : ((BitSet.replicate 1).withWords
      [(BitStream.ofBytes #[0]).peek 1]).toList[i]? ≠ some true := by
    rw [hbits]
    cases i <;> simp
  rintro ⟨indicator, hdecodes, hmark⟩
  cases hdecodes with
  | inside hstep hdecodes =>
      cases hstep with
      | @copy _ _ _ _ count _ _ hcount hadm hcomes =>
          have hone : 1 ≤ count ∧ count ≤ 1 := ArrayOf.admits_iff.1 hadm
          obtain rfl : count = 1 := by omega
          obtain ⟨word, hword, -⟩ := ArrayOf.readCount_eq_ok_iff.1 hcount
          cases hword
          cases hcomes with
          | present _ hcomes => cases hcomes
          | here =>
              cases hdecodes with
              | here hr hm =>
                  cases hr
                  cases hm
                  exact hclear i ((BitSet.getElem?_toList _ i).2 hmark)
              | inside hstep _ =>
                  cases hstep with
                  | required hcomes => cases hcomes
                  | optional hr hm hcomes =>
                      cases hr
                      cases hm
                      exact hclear _ hcomes.mark_eq

/-! ### Absent fields do not leak -/

/-- **Absent fields do not leak.**  Two trees that are the same but for what stands in optional
fields without a mark, wherever a stream stands: they have the same size and are written with the
same result and as the same bits.  They are also read with the same result and leave the same
stream, as long as no marks that are read name a field in which they differ.  Then they are the same
but for absent fields again; and such a field, like every one that neither read names, stands in
each tree as it was, unless an array around it has been given new elements. -/
theorem absent_fields_do_not_leak {k k' : Kind} (hk : k.Reachable) (hk' : k'.Reachable)
    (h : k.SameButAbsent k') (s : BitStream) :
    k.measure.1 = k'.measure.1 ∧ k.write s = k'.write s ∧
    (k.MarksNoDifference k' s →
      (k.read s).1 = (k'.read s).1 ∧ (k.read s).2.2 = (k'.read s).2.2 ∧
      (k.read s).2.1.SameButAbsent (k'.read s).2.1 ∧
      ∀ path i, k.Differs k' path i ∨ ¬ (k.Marks s path i ∨ k'.Marks s path i) →
        k.Leaves s path i ∧ k'.Leaves s path i) := by
  have hwf := hk.wellFormed
  have hwf' := hk'.wellFormed
  refine ⟨?_, h.write_eq hwf hwf' s, ?_⟩
  · rw [hwf.measure_fst, hwf'.measure_fst, h.size_eq hwf hwf']
  · intro hmarks
    obtain ⟨r, x, y, t, hx, hy, hsame⟩ := h.readsEqually hwf hwf' s hmarks
    refine ⟨?_, ?_, ?_, ?_⟩
    · rw [hx, hy]
    · rw [hx, hy]
    · rw [hx, hy]
      exact hsame
    · intro path i hfield
      have hunmarked : ¬ (k.Marks s path i ∨ k'.Marks s path i) := by
        rcases hfield with hdiff | hunmarked
        · exact fun hmark => hmarks path i hmark hdiff
        · exact hunmarked
      exact ⟨Kind.leaves_of_not_marks fun hmark => hunmarked (.inl hmark),
        Kind.leaves_of_not_marks fun hmark => hunmarked (.inr hmark)⟩

/-- An array of a group in which a text is absent that cannot be written, and one in which a truth
value is absent, are written alike, and read alike from a clear mark.  Each keeps its prototype. -/
theorem absent_fields_do_not_leak_text : ∃ (k k' : Kind) (s : BitStream), k.Reachable ∧
    k'.Reachable ∧ k.SameButAbsent k' ∧ k.MarksNoDifference k' s ∧ k.Differs k' [.prototype] 0 ∧
    k.measure.1 = k'.measure.1 ∧ k.write s = k'.write s ∧ (k'.write s).1 = .ok 1 ∧
    (k.read s).1 = .ok 1 ∧ (k'.read s).1 = .ok 1 ∧
    (k.read s).2.1.optionalAt? [.prototype] 0 = some ⟨some "note", .scalar (.text "a\x00")⟩ ∧
    (k'.read s).2.1.optionalAt? [.prototype] 0 = some ⟨some "note", .scalar (.bool true)⟩ := by
  have hk : (Kind.notes (.text "a\x00")).Reachable := Kind.reachable_notes trivial
  have hk' : (Kind.notes (.bool true)).Reachable := Kind.reachable_notes trivial
  have hsame : (Kind.notes (.text "a\x00")).SameButAbsent (.notes (.bool true)) :=
    Kind.sameButAbsent_notes (u := .text "a\x00") trivial _
  have hmarks : (Kind.notes (.text "a\x00")).MarksNoDifference (.notes (.bool true))
      (BitStream.ofBytes #[0]) := by
    intro path i hmark
    rcases hmark with hmark | hmark <;> exact absurd hmark (Kind.not_marks_notes _ path i)
  have hdiff : (Kind.notes (.text "a\x00")).Differs (.notes (.bool true)) [.prototype] 0 := by
    refine ⟨_, _, rfl, rfl, ?_⟩
    intro h
    cases h with
    | scalar hforget => cases hforget
  obtain ⟨hsize, hwrite, hread⟩ := absent_fields_do_not_leak hk hk' hsame (BitStream.ofBytes #[0])
  obtain ⟨hresult, -, -, hleaves⟩ := hread hmarks
  obtain ⟨hleft, hleft'⟩ := hleaves [.prototype] 0 (.inl hdiff)
  -- the path leads to the prototype, not into an element
  have hkept {k : Kind} (h : k.Leaves (BitStream.ofBytes #[0]) [.prototype] 0) :
      (k.read (BitStream.ofBytes #[0])).2.1.optionalAt? [.prototype] 0 =
        k.optionalAt? [.prototype] 0 := by
    refine h.resolve_right ?_
    intro hreplaces
    cases hreplaces
  exact ⟨_, _, _, hk, hk', hsame, hmarks, hdiff, hsize, hwrite, rfl, hresult.trans rfl, rfl,
    hkept hleft, hkept hleft'⟩

end WireTree
