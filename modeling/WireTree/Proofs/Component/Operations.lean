/-
**The operations, at any depth.**

A leaf is given another value, other bounds, another length or a bit; an array is pushed to and
popped, and its elements are changed in place; a group gets and loses fields, and has fields marked
and changed in place; and everything can be cleared, or read into, with success or without.  An
operation is carried out on a component or on a node inside, to which a path leads.  An operation
that hands a part out takes what is done to the part.

Provided that what an operation is given came up itself, so does what it leaves, at the end of
whatever path.  A path enters every group and array on the way, so that it is enough to look at
one step of it; the rest is induction.

Main definitions:

* `WireTree.Edit.Sound`, `WireTree.Variant.SoundAt` — changes of components that come up, and of
  the contents of one variant;
* `WireTree.Operation`, `WireTree.Operation.edit` — the operations, and the change that each is;
* `WireTree.Operation.Admissible` — what an operation may be given.

Main results:

* `WireTree.Kind.reachable_scalar_iff` — a leaf comes up exactly if it is well-formed;
* `WireTree.Operation.sound` — what an operation leaves comes up;
* `WireTree.Edit.Sound.within` — and so it does at the end of a path.
-/

import WireTree.Component.Edit
import WireTree.Proofs.BitSet.Bits
import WireTree.Proofs.Component.Reachable

set_option relaxedAutoImplicit false
set_option autoImplicit false

namespace WireTree

variable {ρ : Type}

/-! ### Leaves that come up -/

theorem BoundedInt.WellFormed.reachable {r : BoundedInt} (h : r.WellFormed) : r.Reachable := by
  have hnew := BoundedInt.Reachable.make
    (show BoundedInt.make r.value r.lower r.upper = _ from dif_pos r.lower_le_upper)
  cases hc : r.cachedBits with
  | none =>
      rw [← hc] at hnew
      exact hnew
  | some width =>
      have hremember := BoundedInt.Reachable.remember hnew
      rw [BoundedInt.remember, BoundedInt.width, Option.getD_none, ← h width hc, ← hc] at hremember
      exact hremember

theorem BitSet.WellFormed.reachable {b : BitSet} (h : b.WellFormed) : b.Reachable := by
  rw [h.eq_of_toList_eq (.ofList b.toList) (BitSet.toList_ofList _).symm]
  exact .ofList _

theorem Digest.WellFormed.reachable {d : Digest} (h : d.WellFormed) : d.Reachable := by
  rw [h.eq_of_bytes_eq (Digest.wellFormed_ofBytes d.bytes) (Digest.bytes_ofBytes d.bytes).symm]
  exact .ofBytes _

namespace Kind

/-- A leaf comes up exactly if it is well-formed. -/
theorem reachable_scalar_iff {v : Scalar} : (Kind.scalar v).Reachable ↔ v.WellFormed := by
  constructor
  · intro h
    cases h.wellFormed with
    | scalar hv => exact hv
  · intro h
    cases v with
    | bounded r => exact .bounded (BoundedInt.WellFormed.reachable h)
    | bits b => exact .bits (BitSet.WellFormed.reachable h)
    | digest d => exact .digest (Digest.WellFormed.reachable h)
    | _ => exact .free trivial

theorem Reachable.of_bounded {r : BoundedInt} (h : (Kind.scalar (.bounded r)).Reachable) :
    r.Reachable := BoundedInt.WellFormed.reachable (reachable_scalar_iff.1 h)

theorem Reachable.of_bits {b : BitSet} (h : (Kind.scalar (.bits b)).Reachable) : b.Reachable :=
  BitSet.WellFormed.reachable (reachable_scalar_iff.1 h)

theorem Reachable.of_digest {d : Digest} (h : (Kind.scalar (.digest d)).Reachable) :
    d.Reachable := Digest.WellFormed.reachable (reachable_scalar_iff.1 h)

end Kind

/-! ### Elements and fields that are changed in place -/

section InPlace

variable {P : Kind → Prop} {v : Variant}

namespace ArrayOf

variable {a : ArrayField} {f : v.Content → ρ × v.Content}

/-- What holds of the prototype and of all elements, and of what a change makes of contents of
which it holds, holds of all elements after a changed copy of the prototype has been pushed. -/
theorem forall_push
    (hf : ∀ content, P (Kind.ofContent v content) → P (Kind.ofContent v (f content).2))
    (hprototype : P a.prototype.kind) (helements : ∀ c ∈ a.elements, P c.kind) :
    ∀ c ∈ (a.push v f).2.elements, P c.kind := by
  unfold push
  split
  · exact helements
  · rename_i content hcast
    simp only
    split
    · exact helements
    · rename_i a' hpush
      obtain ⟨-, -, rfl⟩ := pushComponent_eq_ok_iff.1 hpush
      rw [Kind.downcast_eq_ok_iff.1 hcast] at hprototype
      have hnew := hf content hprototype
      exact List.forall_mem_append.2 ⟨helements, List.forall_mem_singleton.2 hnew⟩

/-- The same for the change of one element. -/
theorem forall_modifyAs
    (hf : ∀ content, P (Kind.ofContent v content) → P (Kind.ofContent v (f content).2))
    (helements : ∀ c ∈ a.elements, P c.kind) (i : Nat) :
    ∀ c ∈ (a.modifyAs v i f).2.elements, P c.kind := by
  rw [modifyAs]
  split
  · exact helements
  · rename_i c hc
    split
    · exact helements
    · rename_i content hcast
      have hold := helements c (List.mem_of_getElem? hc)
      rw [Kind.downcast_eq_ok_iff.1 hcast] at hold
      exact forall_mem_set helements (hf content hold)

variable {σ : Type} {f : σ → v.Content → σ × v.Content}

theorem forall_modifyEach
    (hf : ∀ s content, P (Kind.ofContent v content) → P (Kind.ofContent v (f s content).2))
    {cs : List Component} (hcs : ∀ c ∈ cs, P c.kind) (s : σ) :
    ∀ c ∈ (modifyEach v f s cs).2, P c.kind := by
  induction cs generalizing s with
  | nil => exact hcs
  | cons c cs ih =>
      obtain ⟨hc, hcs⟩ := List.forall_mem_cons.1 hcs
      rw [modifyEach]
      split
      · exact List.forall_mem_cons.2 ⟨hc, ih hcs s⟩
      · rename_i content hcast
        rw [Kind.downcast_eq_ok_iff.1 hcast] at hc
        exact List.forall_mem_cons.2 ⟨hf s content hc, ih hcs _⟩

/-- The same for the change of all elements in turn. -/
theorem forall_modifyAll
    (hf : ∀ s content, P (Kind.ofContent v content) → P (Kind.ofContent v (f s content).2))
    (helements : ∀ c ∈ a.elements, P c.kind) (s : σ) :
    ∀ c ∈ (a.modifyAll v f s).2.elements, P c.kind := by
  rw [modifyAll]
  split
  · exact helements
  · exact forall_modifyEach hf helements s

end ArrayOf

namespace GroupOf

/-- All fields of a group are of some sort. -/
def All (g : Group) (P : Kind → Prop) : Prop :=
  (∀ c ∈ g.required, P c.kind) ∧ ∀ c ∈ g.optional, P c.kind

variable {g g' : Group}

theorem All.of_find (h : g.All P) {name : String} {slot : Slot} {c : Component}
    (hfind : g.find name = .ok (slot, c)) : P c.kind := by
  have hc := fieldAt?_of_find hfind
  cases slot with
  | required i => exact h.1 c (List.mem_of_getElem? hc)
  | optional i => exact h.2 c (List.mem_of_getElem? hc)

theorem All.setFieldAt (h : g.All P) {c : Component} (hc : P c.kind) (slot : Slot) :
    (g.setFieldAt slot c).forget.All P := by
  cases slot with
  | required i => exact ⟨forall_mem_set h.1 hc, h.2⟩
  | optional i => exact ⟨h.1, forall_mem_set h.2 hc⟩

theorem All.modifyField {f : Kind → ρ × Kind} (h : g.All P) (hf : ∀ k, P k → P (f k).2)
    (name : String) : (g.modifyField name f).2.All P := by
  rw [GroupOf.modifyField]
  rcases hfind : g.find name with e | ⟨slot, c⟩
  · exact h
  · have hnew := hf _ (h.of_find hfind)
    exact h.setFieldAt hnew slot

variable {f : v.Content → ρ × v.Content}

theorem All.modifyAs (h : g.All P)
    (hf : ∀ content, P (Kind.ofContent v content) → P (Kind.ofContent v (f content).2))
    (name : String) : (g.modifyAs v name f).2.All P := by
  rw [GroupOf.modifyAs]
  rcases hfind : g.find name with e | ⟨slot, c⟩
  · exact h
  · simp only
    have hold := h.of_find hfind
    rcases hcast : c.kind.downcast v with e | content
    · exact h
    · rw [Kind.downcast_eq_ok_iff.1 hcast] at hold
      have hnew := hf content hold
      exact h.setFieldAt hnew slot

theorem All.setPresent (h : g.All P) {name : String} {present : Bool}
    (hset : g.setPresent name present = .ok g') : g'.All P := by
  unfold GroupOf.setPresent at hset
  split at hset
  · cases hset
  · cases hset
  · split at hset
    · cases hset
    · cases hset
      exact h

theorem All.enable (h : g.All P)
    (hf : ∀ content, P (Kind.ofContent v content) → P (Kind.ofContent v (f content).2))
    (name : String) : (g.enable v name f).2.All P := by
  rw [GroupOf.enable]
  rcases g.get v name with e | content
  · exact h
  · simp only
    rcases hset : g.setPresent name true with e | g₁
    · exact h
    · exact (h.setPresent hset).modifyAs hf name

end GroupOf

end InPlace

/-! ### Sound changes -/

/-- A change of contents of a variant that makes of contents that come up such as come up. -/
def Variant.SoundAt (v : Variant) (f : v.Content → v.Content) : Prop :=
  ∀ content, (Kind.ofContent v content).Reachable → (Kind.ofContent v (f content)).Reachable

namespace Edit

/-- A change that makes of components that come up such as come up. -/
def Sound (e : Edit ρ) : Prop := ∀ k : Kind, k.Reachable → (e.run k).2.Reachable

/-- The same change without its answer. -/
def quiet (e : Edit ρ) : Edit Unit := fun v content => ((), (e v content).2)

/-- A change of components of one variant that leaves all others as they are. -/
def on (v : Variant) (f : v.Content → v.Content) : Edit Unit := fun v' content =>
  ((), if h : v' = v then h ▸ f (h ▸ content) else content)

theorem Sound.soundAt {e : Edit ρ} (h : e.Sound) (v : Variant) :
    v.SoundAt fun content => (e v content).2 := by
  intro content hcontent
  have hrun := h _ hcontent
  rwa [run_ofContent] at hrun

theorem sound_ofKind {f : Kind → ρ × Kind} {hf : ∀ k, (f k).2.variant = k.variant}
    (h : ∀ k, k.Reachable → (f k).2.Reachable) : (ofKind f hf).Sound := by
  intro k hk
  rw [run_ofKind]
  exact h k hk

theorem sound_on {v : Variant} {f : v.Content → v.Content} (h : v.SoundAt f) : (on v f).Sound := by
  intro k hk
  by_cases hv : k.variant = v
  · subst hv
    rw [← k.ofContent_content] at hk
    rw [run, on, dif_pos rfl]
    exact h _ hk
  · rw [run, on, dif_neg hv]
    simpa using hk

theorem run_within_field (name : String) (path : List Step) (e : Edit ρ) (g : Group) :
    ((within (.field name :: path) e).run (.group g)).2 =
      .group (g.modifyField name (within path e).run).2 := by
  refine (congrArg Prod.snd (run_ofContent _ .group g)).trans (congrArg Kind.group ?_)
  simp only [within]
  rcases g.modifyField name (within path e).run with ⟨_ | r, g'⟩ <;> rfl

theorem run_within_element (i : Nat) (path : List Step) (e : Edit ρ) (a : ArrayField) :
    ((within (.element i :: path) e).run (.array a)).2 =
      .array (a.modifyAs a.prototype.kind.variant i (within path e _)).2 := by
  refine (congrArg Prod.snd (run_ofContent _ .array a)).trans (congrArg Kind.array ?_)
  simp only [within]
  rcases a.modifyAs a.prototype.kind.variant i (within path e _) with ⟨_ | r, a'⟩ <;> rfl

end Edit

theorem Kind.Reachable.all {g : Group} (h : (Kind.group g).Reachable) : g.All Kind.Reachable :=
  ⟨fun _ hc => .requiredField h hc, fun _ hc => .optionalField h hc⟩

/-- A change stays sound at the end of a path. -/
theorem Edit.Sound.within {e : Edit ρ} (he : e.Sound) : ∀ path, (Edit.within path e).Sound := by
  intro path
  induction path with
  | nil => exact he
  | cons step path ih =>
      intro k hk
      -- where the path does not fit, nothing is changed
      cases step with
      | field name =>
          cases k with
          | scalar v => cases v <;> exact hk
          | array a => exact hk
          | group g =>
              obtain ⟨hreq, hopt⟩ := hk.all.modifyField ih name
              rw [run_within_field]
              exact .modifyField hk hreq hopt
      | element i =>
          cases k with
          | scalar v => cases v <;> exact hk
          | group g => exact hk
          | array a =>
              rw [run_within_element]
              exact .modifyElement hk
                (ArrayOf.forall_modifyAs (ih.soundAt _) (fun _ hc => .element hk hc) i)

/-! ### The operations -/

/-- The operations on a component. -/
inductive Operation where
  /-- Gives a leaf other contents of its variant. -/
  | replace (v : Scalar)
  /-- Gives a bounded integer another value. -/
  | setValue (value : Int32)
  /-- Gives a bounded integer other bounds. -/
  | setBounds (lower upper : Int32)
  /-- Gives one of a set of bits another value. -/
  | setBit (i : Nat) (value : Bool)
  /-- Gives a set of bits another length. -/
  | resizeBits (len : Nat)
  /-- Takes one of a set of bits out. -/
  | removeBit (i : Nat)
  /-- Gives a digest other bytes. -/
  | setBytes (bytes : Vector UInt8 16)
  /-- Gives a digest the bytes that a text stands for. -/
  | setDigest (text : String)
  /-- Appends a component to an array. -/
  | pushComponent (c : Component)
  /-- Appends a copy of the prototype to an array and changes it. -/
  | push (v : Variant) (f : v.Content → v.Content)
  /-- Takes the last element of an array off. -/
  | pop
  /-- Changes an element of an array. -/
  | modifyElement (v : Variant) (i : Nat) (f : v.Content → v.Content)
  /-- Changes the elements of an array in turn. -/
  | modifyElements (v : Variant) (f : Nat → v.Content → v.Content)
  /-- Adds a field to a group. -/
  | addField (c : Component) (optional : Bool)
  /-- Takes a field of a group out. -/
  | removeField (name : String)
  /-- Marks a field of a group present or absent. -/
  | setPresent (name : String) (present : Bool)
  /-- Changes a field of a group, maybe to a component of another variant. -/
  | modifyField (name : String) (f : Kind → Kind)
  /-- Changes a field of a group of a given variant. -/
  | modifyFieldAs (v : Variant) (name : String) (f : v.Content → v.Content)
  /-- Marks a field of a group of a given variant present and changes it. -/
  | enable (v : Variant) (name : String) (f : v.Content → v.Content)
  /-- Clears a component. -/
  | clear
  /-- Reads a component, up to the first failure. -/
  | read (s : BitStream)

/-- What an attempt leaves that changes nothing where it fails. -/
def orSame {σ : Type} (s : σ) : Except WireError σ → σ
  | .ok s' => s'
  | .error _ => s

theorem of_orSame {σ : Type} {P : σ → Prop} {s : σ} {r : Except WireError σ} (hs : P s)
    (hr : ∀ s', r = .ok s' → P s') : P (orSame s r) := by
  cases r with
  | error e => exact hs
  | ok s' => exact hr s' rfl

namespace Operation

/-- The change of components that an operation is. -/
def edit : Operation → Edit Unit
  | replace v => .on v.variant fun _ => (Kind.scalar v).content
  | setValue value => .on .bounded fun r => BoundedInt.set r value
  | setBounds lower upper => .on .bounded fun r => orSame r (BoundedInt.setBounds r lower upper)
  | setBit i value => .on .bits fun b => orSame b (BitSet.set b i value)
  | resizeBits len => .on .bits fun b => BitSet.resize b len
  | removeBit i => .on .bits fun b => orSame b ((BitSet.remove b i).map Prod.snd)
  | setBytes bytes => .on .digest fun d => Digest.setBytes d bytes
  | setDigest text => .on .digest fun d => orSame d (Digest.setText d text)
  | pushComponent c => .on .array fun a => orSame a (ArrayOf.pushComponent a c)
  | push v f => .on .array fun a => (ArrayOf.push a v fun x => ((), f x)).2
  | pop => .on .array fun a => (ArrayOf.pop a).2
  | modifyElement v i f => .on .array fun a => (ArrayOf.modifyAs a v i fun x => ((), f x)).2
  | modifyElements v f =>
    .on .array fun a => (ArrayOf.modifyAll a v (fun n x => (n + 1, f n x)) 0).2
  | addField c optional => .on .group fun g => orSame g (GroupOf.addField g c optional)
  | removeField name => .on .group fun g => orSame g ((GroupOf.removeField g name).map Prod.snd)
  | setPresent name present => .on .group fun g => orSame g (GroupOf.setPresent g name present)
  | modifyField name f => .on .group fun g => (GroupOf.modifyField g name fun k => ((), f k)).2
  | modifyFieldAs v name f => .on .group fun g => (GroupOf.modifyAs g v name fun x => ((), f x)).2
  | enable v name f => .on .group fun g => (GroupOf.enable g v name fun x => ((), f x)).2
  | clear => .clear
  | read s => (Edit.read s).quiet

/-- What an operation may be given: components and streams that come up, and changes of parts that
make of such as come up such as come up. -/
def Admissible : Operation → Prop
  | replace v => (Kind.scalar v).Reachable
  | pushComponent c | addField c _ => c.kind.Reachable
  | push v f | modifyElement v _ f | modifyFieldAs v _ f | enable v _ f => v.SoundAt f
  | modifyElements v f => ∀ n, v.SoundAt (f n)
  | modifyField _ f => ∀ k, k.Reachable → (f k).Reachable
  | read s => s.Reachable
  | _ => True

end Operation

theorem Except.map_snd_eq_ok_iff {α β : Type} {r : Except WireError (α × β)} {y : β} :
    r.map Prod.snd = .ok y ↔ ∃ x, r = .ok (x, y) := by
  rcases r with e | ⟨x, y'⟩ <;> simp [Except.map]

/-- What an operation leaves of a component that comes up comes up. -/
theorem Operation.sound {op : Operation} (h : op.Admissible) : op.edit.Sound := by
  cases op <;> rw [edit]
  case clear =>
      refine Edit.sound_ofKind ?_
      intro k hk
      exact .clear hk
  case read s =>
      have hread : (Edit.read s).Sound := Edit.sound_ofKind fun _ hk => .read hk h
      exact hread
  -- all others change contents of one variant only
  all_goals
    refine Edit.sound_on ?_
    intro x hx
  case replace v => exact (congrArg Kind.Reachable (Kind.scalar v).ofContent_content).mpr h
  case setValue value => exact .bounded (.set value hx.of_bounded)
  case setBounds lower upper =>
      exact .bounded (of_orSame hx.of_bounded fun _ hset => .setBounds hx.of_bounded hset)
  case setBit i value => exact .bits (of_orSame hx.of_bits fun _ hset => .set hx.of_bits hset)
  case resizeBits len => exact .bits (.resize len hx.of_bits)
  case removeBit i =>
      refine .bits (of_orSame hx.of_bits ?_)
      intro b hremove
      obtain ⟨_, hremove⟩ := Except.map_snd_eq_ok_iff.1 hremove
      exact .remove hx.of_bits hremove
  case setBytes bytes => exact .digest (.setBytes bytes hx.of_digest)
  case setDigest text =>
      exact .digest (of_orSame hx.of_digest fun _ hset => .setText hx.of_digest hset)
  case pushComponent c =>
      exact of_orSame (P := fun a => (Kind.array a).Reachable) hx
        fun _ hpush => .pushComponent hx h hpush
  case push v f =>
      exact .push hx (ArrayOf.forall_push h (.prototype hx) fun _ hc => .element hx hc)
  case pop => exact .pop hx
  case modifyElement v i f =>
      have helements := ArrayOf.forall_modifyAs (f := fun x => ((), f x)) h
        (fun _ hc => .element hx hc) i
      exact .modifyElement hx helements
  case modifyElements v f =>
      have helements := ArrayOf.forall_modifyAll (f := fun n x => (n + 1, f n x)) h
        (fun _ hc => .element hx hc) 0
      exact .modifyAll hx helements
  case addField c optional =>
      exact of_orSame (P := fun g => (Kind.group g).Reachable) hx
        fun _ hadd => .addField hx h hadd
  case removeField name =>
      refine of_orSame (P := fun g => (Kind.group g).Reachable) hx ?_
      intro g hremove
      obtain ⟨_, hremove⟩ := Except.map_snd_eq_ok_iff.1 hremove
      exact .removeField hx hremove
  case setPresent name present =>
      exact of_orSame (P := fun g => (Kind.group g).Reachable) hx
        fun _ hset => .setPresent hx hset
  case modifyField name f =>
      obtain ⟨hreq, hopt⟩ := hx.all.modifyField (f := fun k => ((), f k)) h name
      exact .modifyField hx hreq hopt
  case modifyFieldAs v name f =>
      obtain ⟨hreq, hopt⟩ := hx.all.modifyAs (f := fun x => ((), f x)) h name
      exact .modifyAs hx hreq hopt
  case enable v name f =>
      obtain ⟨hreq, hopt⟩ := hx.all.enable (f := fun x => ((), f x)) h name
      exact .enable hx hreq hopt

end WireTree
