/-
**The components that come up.**

A component comes up if it is a leaf, an empty array or a group without fields, or if it is left
by an operation on components that came up: a change of an array or of a group, a read that goes
through or fails, clearing and measuring.  Where an operation hands an element or a field out to
be changed, anything that came up itself may be put back.  Parts of components that come up, which
can be copied out, come up too.

Each operation keeps a component well-formed, so every component that comes up is.

Main definitions:

* `WireTree.Kind.MeasuredInside` — the size of a node inside has been asked for;
* `WireTree.Kind.Reachable` — the components that come up;
* `WireTree.Message.Reachable` — the messages that come up.

Main results:

* `WireTree.Kind.Reachable.wellFormed` — every component that comes up is well-formed.
-/

import WireTree.Message
import WireTree.Proofs.Component.WellFormed

set_option relaxedAutoImplicit false
set_option autoImplicit false

namespace WireTree

/-- What holds of the members of a list and of a newcomer holds after the newcomer has taken the
place of one of them. -/
theorem forall_mem_set {α : Type} {P : α → Prop} {l : List α} {i : Nat} {x : α}
    (h : ∀ y ∈ l, P y) (hx : P x) : ∀ y ∈ l.set i x, P y := by
  intro y hy
  rcases List.mem_or_eq_of_mem_set hy with hold | rfl
  · exact h y hold
  · exact hx

/-! ### Operations on arrays -/

namespace ArrayOf

variable {ρ σ : Type} {a : ArrayField}

theorem consistent_make {prototype : Component} {minCount maxCount : Nat}
    (hmake : make prototype minCount maxCount = .ok a) : a.Consistent := by
  unfold make at hmake
  split at hmake
  · cases hmake
  · rename_i hbounds
    rw [maxMaxCount] at hbounds
    rcases hcount : BoundedInt.make 0 (Int32.ofNat minCount) (Int32.ofNat maxCount) with e | r <;>
      rw [hcount] at hmake <;> cases hmake
    obtain ⟨hvalue, hlower, hupper, hcached⟩ := BoundedInt.eq_of_make hcount
    exact {
      lower_eq := by rw [hlower]; exact Int32.toInt_ofNat_of_lt (by omega)
      upper_eq := by rw [hupper]; exact Int32.toInt_ofNat_of_lt (by omega)
      countField_wellFormed := BoundedInt.wellFormed_of_uncached hcached
      value_eq := by rw [hvalue]; rfl
      len_le := Nat.zero_le _
      variant_eq := List.forall_mem_nil _
      cachedSize_eq := by
        intro n hn
        cases hn }

theorem consistent_unbounded (prototype : Component) : (unbounded prototype).Consistent where
  lower_eq := rfl
  upper_eq := rfl
  countField_wellFormed := BoundedInt.wellFormed_of_uncached rfl
  value_eq := rfl
  len_le := Nat.zero_le _
  variant_eq := List.forall_mem_nil _
  cachedSize_eq n hn := by cases hn

/-- What a new array is: the prototype and the bounds asked for, and no elements. -/
theorem eq_of_make {prototype : Component} {minCount maxCount : Nat}
    (hmake : make prototype minCount maxCount = .ok a) : a.prototype = prototype ∧
      a.minCount = minCount ∧ a.maxCount = maxCount ∧ a.elements = [] := by
  unfold make at hmake
  split at hmake
  · cases hmake
  · split at hmake <;> cases hmake
    exact ⟨rfl, rfl, rfl, rfl⟩

theorem wellFormed_make {prototype : Component} {minCount maxCount : Nat}
    (h : prototype.kind.WellFormed) (hmake : make prototype minCount maxCount = .ok a) :
    (Kind.array a).WellFormed := by
  obtain ⟨hprototype, -, -, helements⟩ := eq_of_make hmake
  refine .array (consistent_make hmake) (hprototype ▸ h) ?_
  rw [helements]
  exact List.forall_mem_nil _

theorem wellFormed_unbounded {prototype : Component} (h : prototype.kind.WellFormed) :
    (Kind.array (unbounded prototype)).WellFormed :=
  .array (consistent_unbounded prototype) h (List.forall_mem_nil _)

theorem wellFormed_pushComponent {a' : ArrayField} {c : Component}
    (h : (Kind.array a).WellFormed) (hc : c.kind.WellFormed)
    (hpush : a.pushComponent c = .ok a') : (Kind.array a').WellFormed := by
  obtain ⟨hvariant, hroom, rfl⟩ := pushComponent_eq_ok_iff.1 hpush
  rw [len] at hroom
  cases h with
  | array hcons hproto hwf =>
      refine (Kind.WellFormed.array hcons hproto hwf).withElements ?_ ?_ ?_
      · rw [List.length_append, List.length_singleton]
        exact hroom
      · exact List.forall_mem_append.2 ⟨hcons.variant_eq, by simpa using hvariant⟩
      · exact List.forall_mem_append.2 ⟨hwf, by simpa using hc⟩

/-- A push leaves the array as it was or appends a component. -/
theorem push_cases (a : ArrayField) (v : Variant) (f : v.Content → ρ × v.Content) :
    (a.push v f).2 = a ∨ ∃ c, a.pushComponent c = .ok (a.push v f).2 := by
  unfold push
  split
  · exact .inl rfl
  · simp only
    split
    · exact .inl rfl
    · rename_i hpush
      exact .inr ⟨_, hpush⟩

theorem wellFormed_push {v : Variant} {f : v.Content → ρ × v.Content}
    (h : (Kind.array a).WellFormed) (hnew : ∀ c ∈ (a.push v f).2.elements, c.kind.WellFormed) :
    (Kind.array (a.push v f).2).WellFormed := by
  rcases push_cases a v f with heq | ⟨c, hpush⟩
  · rw [heq]
    exact h
  · refine wellFormed_pushComponent h (hnew c ?_) hpush
    obtain ⟨-, -, heq⟩ := pushComponent_eq_ok_iff.1 hpush
    rw [heq]
    simp [withElements]

theorem wellFormed_pop (h : (Kind.array a).WellFormed) : (Kind.array a.pop.2).WellFormed := by
  cases h with
  | array hcons hproto hwf =>
      have hmem {c : Component} (hc : c ∈ a.elements.dropLast) : c ∈ a.elements :=
        List.dropLast_subset _ hc
      refine (Kind.WellFormed.array hcons hproto hwf).withElements ?_ ?_ ?_
      · have hlen := hcons.len_le
        rw [len] at hlen
        rw [List.length_dropLast]
        omega
      · intro c hc
        exact hcons.variant_eq c (hmem hc)
      · intro c hc
        exact hwf c (hmem hc)

/-- A change of an element leaves the array as it was, or without its size, or with another
component of the same variant in the place of the element. -/
theorem modifyAs_cases (a : ArrayField) (v : Variant) (i : Nat) (f : v.Content → ρ × v.Content) :
    (a.modifyAs v i f).2 = a ∨ (a.modifyAs v i f).2 = a.forget ∨
      ∃ c ∈ a.elements, ∃ kind : Kind, kind.variant = c.kind.variant ∧
        (a.modifyAs v i f).2 =
          { a with elements := a.elements.set i (c.withKind kind), cachedSize := none } := by
  unfold modifyAs
  split
  · exact .inl rfl
  · rename_i c hc
    split
    · exact .inr (.inl rfl)
    · rename_i content hcast
      -- the element was of the variant asked for, and what is put back is again
      have hv : c.kind.variant = v := by
        rw [Kind.downcast_eq_ok_iff.1 hcast, Kind.variant_ofContent]
      exact .inr (.inr ⟨c, List.mem_of_getElem? hc, Kind.ofContent v (f content).2,
        by rw [Kind.variant_ofContent, hv], rfl⟩)

theorem wellFormed_modifyAs {v : Variant} {i : Nat} {f : v.Content → ρ × v.Content}
    (h : (Kind.array a).WellFormed)
    (hnew : ∀ c ∈ (a.modifyAs v i f).2.elements, c.kind.WellFormed) :
    (Kind.array (a.modifyAs v i f).2).WellFormed := by
  rcases modifyAs_cases a v i f with heq | heq | ⟨c, hc, kind, hkind, heq⟩ <;> rw [heq] at hnew ⊢
  · exact h
  · exact h.arrayForget
  · exact h.exchange (List.length_set ..)
      (forall_mem_set h.variant_eq (hkind.trans (h.variant_eq c hc))) hnew

/-- The variants of the elements stay when all are changed in turn. -/
theorem variants_modifyEach (v : Variant) (f : σ → v.Content → σ × v.Content) (s : σ)
    (cs : List Component) :
    ((modifyEach v f s cs).2.map fun c => c.kind.variant) = cs.map fun c => c.kind.variant := by
  induction cs generalizing s with
  | nil => rfl
  | cons c cs ih =>
      unfold modifyEach
      split
      · rw [List.map_cons, List.map_cons, ih s]
      · rename_i content hcast
        rw [List.map_cons, List.map_cons, ih, Kind.downcast_eq_ok_iff.1 hcast]
        simp [Named.withKind]

theorem wellFormed_modifyAll {v : Variant} {f : σ → v.Content → σ × v.Content} {s : σ}
    (h : (Kind.array a).WellFormed)
    (hnew : ∀ c ∈ (a.modifyAll v f s).2.elements, c.kind.WellFormed) :
    (Kind.array (a.modifyAll v f s).2).WellFormed := by
  rw [modifyAll] at hnew ⊢
  split
  · exact h
  · rename_i content hcast
    rw [hcast] at hnew
    refine h.exchange (length_modifyEach ..) ?_ hnew
    have hmap := variants_modifyEach v f s a.elements
    -- a new element has the variant of the old one in its place
    intro c hc
    have hmem : c.kind.variant ∈ a.elements.map fun c => c.kind.variant := by
      rw [← hmap]
      exact List.mem_map_of_mem hc
    obtain ⟨c', hc', heq⟩ := List.mem_map.1 hmem
    rw [← heq]
    exact h.variant_eq c' hc'

end ArrayOf

/-! ### Operations on groups -/

namespace GroupOf

variable {ρ : Type} {g g' : Group}

theorem wellFormed_empty : (Kind.group .empty).WellFormed :=
  .ofFields (List.forall_mem_nil _) (List.forall_mem_nil _) (.replicate 0) rfl rfl

/-- Fields may be exchanged for others as long as there is a mark for every optional one. -/
theorem wellFormed_exchange (h : (Kind.group g).WellFormed)
    (hreq : ∀ c ∈ g'.required, c.kind.WellFormed) (hopt : ∀ c ∈ g'.optional, c.kind.WellFormed)
    (hind : g'.indicator = g.indicator) (hlen : g'.optional.length = g.optional.length)
    (hcache : g'.cachedSize = none) : (Kind.group g').WellFormed := by
  cases h with
  | group hcons _ _ =>
      exact .ofFields hreq hopt (hind ▸ hcons.indicator_wellFormed)
        (by rw [hind, hlen, hcons.len_indicator]) hcache

theorem wellFormed_append (h : (Kind.group g).WellFormed) {c : Component}
    (hc : c.kind.WellFormed) (optional : Bool) : (Kind.group (g.append c optional)).WellFormed := by
  have hsingle : ∀ c' ∈ [c], c'.kind.WellFormed := by simpa using hc
  cases h with
  | group hcons hreq hopt =>
      cases optional with
      | false =>
          exact .ofFields (List.forall_mem_append.2 ⟨hreq, hsingle⟩) hopt
            hcons.indicator_wellFormed hcons.len_indicator rfl
      | true =>
          exact .ofFields hreq (List.forall_mem_append.2 ⟨hopt, hsingle⟩) (.resize _ _)
            (by simp [append]) rfl

theorem wellFormed_addField (h : (Kind.group g).WellFormed) {c : Component}
    (hc : c.kind.WellFormed) {optional : Bool} (hadd : g.addField c optional = .ok g') :
    (Kind.group g').WellFormed := by
  have happ := wellFormed_append h hc optional
  unfold addField at hadd
  split at hadd
  · split at hadd
    · cases hadd
    · cases hadd
      exact happ
  · split at hadd
    · cases hadd
    · cases hadd
      cases happ with
      | group hcons hreq hopt =>
          exact .ofFields hreq hopt hcons.indicator_wellFormed hcons.len_indicator
            (by cases optional <;> rfl)

/-- A field that is found stands at the place it is found at. -/
theorem fieldAt?_of_find {name : String} {slot : Slot} {c : Component}
    (h : g.find name = .ok (slot, c)) : g.fieldAt? slot = some c := by
  unfold find at h
  split at h
  · cases h
  · split at h
    · cases h
    · rename_i hc
      cases h
      exact hc

theorem wellFormed_removeField (h : (Kind.group g).WellFormed) {name : String} {c : Component}
    (hremove : g.removeField name = .ok (c, g')) : (Kind.group g').WellFormed := by
  cases h with
  | group hcons hreq hopt =>
      unfold removeField at hremove
      split at hremove
      · cases hremove
      · cases hremove
        refine .ofFields ?_ hopt hcons.indicator_wellFormed hcons.len_indicator rfl
        intro c hc
        exact hreq c (List.mem_of_mem_eraseIdx hc)
      · rename_i i _ hfind
        rcases hind : g.indicator.remove i with e | ⟨removed, indicator⟩ <;>
          rw [hind] at hremove <;> cases hremove
        -- the field is there, so one field and one mark go
        have hi : i < g.optional.length :=
          (List.getElem?_eq_some_iff.1 (fieldAt?_of_find hfind)).1
        refine .ofFields hreq ?_ (BitSet.WellFormed.remove hind) ?_ rfl
        · intro c hc
          exact hopt c (List.mem_of_mem_eraseIdx hc)
        · rw [BitSet.len_of_remove hind, List.length_eraseIdx, if_pos hi, hcons.len_indicator]

theorem wellFormed_setPresent (h : (Kind.group g).WellFormed) {name : String} {present : Bool}
    (hset : g.setPresent name present = .ok g') : (Kind.group g').WellFormed := by
  cases h with
  | group hcons hreq hopt =>
      unfold setPresent at hset
      split at hset
      · cases hset
      · cases hset
      · rename_i i _
        rcases hind : g.indicator.set i present with e | indicator <;> rw [hind] at hset <;>
          cases hset
        exact .ofFields hreq hopt (hcons.indicator_wellFormed.set hind)
          ((BitSet.len_of_set hind).trans hcons.len_indicator) rfl

theorem wellFormed_setFieldAt (h : (Kind.group g).WellFormed) {slot : Slot} {c : Component}
    (hreq : ∀ c' ∈ (g.setFieldAt slot c).required, c'.kind.WellFormed)
    (hopt : ∀ c' ∈ (g.setFieldAt slot c).optional, c'.kind.WellFormed) :
    (Kind.group (g.setFieldAt slot c).forget).WellFormed := by
  cases slot with
  | required i => exact wellFormed_exchange h hreq hopt rfl rfl rfl
  | optional i => exact wellFormed_exchange h hreq hopt rfl (List.length_set ..) rfl

theorem wellFormed_modifyField {name : String} {f : Kind → ρ × Kind}
    (h : (Kind.group g).WellFormed)
    (hreq : ∀ c ∈ (g.modifyField name f).2.required, c.kind.WellFormed)
    (hopt : ∀ c ∈ (g.modifyField name f).2.optional, c.kind.WellFormed) :
    (Kind.group (g.modifyField name f).2).WellFormed := by
  rw [modifyField] at hreq hopt ⊢
  rcases hfind : g.find name with e | ⟨slot, c⟩ <;> rw [hfind] at hreq hopt
  · exact h
  · exact wellFormed_setFieldAt h hreq hopt

theorem wellFormed_modifyAs {v : Variant} {name : String} {f : v.Content → ρ × v.Content}
    (h : (Kind.group g).WellFormed)
    (hreq : ∀ c ∈ (g.modifyAs v name f).2.required, c.kind.WellFormed)
    (hopt : ∀ c ∈ (g.modifyAs v name f).2.optional, c.kind.WellFormed) :
    (Kind.group (g.modifyAs v name f).2).WellFormed := by
  rw [modifyAs] at hreq hopt ⊢
  rcases hfind : g.find name with e | ⟨slot, c⟩ <;> rw [hfind] at hreq hopt
  · exact h
  · simp only at hreq hopt ⊢
    rcases hcast : c.kind.downcast v with e | content <;> rw [hcast] at hreq hopt
    · exact h.groupForget
    · exact wellFormed_setFieldAt h hreq hopt

theorem wellFormed_enable {v : Variant} {name : String} {f : v.Content → ρ × v.Content}
    (h : (Kind.group g).WellFormed)
    (hreq : ∀ c ∈ (g.enable v name f).2.required, c.kind.WellFormed)
    (hopt : ∀ c ∈ (g.enable v name f).2.optional, c.kind.WellFormed) :
    (Kind.group (g.enable v name f).2).WellFormed := by
  rw [enable] at hreq hopt ⊢
  rcases hget : g.get v name with e | content <;> rw [hget] at hreq hopt
  · exact h
  · simp only at hreq hopt ⊢
    rcases hset : g.setPresent name true with e | g₁ <;> rw [hset] at hreq hopt
    · exact h
    · exact wellFormed_modifyAs (wellFormed_setPresent h hset) hreq hopt

end GroupOf

/-! ### Measuring inside -/

namespace Kind

/-- The size of some node of `k` has been asked for, and `k'` is what remembers it.  Nothing above
the node is touched. -/
inductive MeasuredInside : Kind → Kind → Prop
  | here (k : Kind) : MeasuredInside k k.measure.2
  | prototype {a : ArrayField} {kind : Kind} :
      MeasuredInside a.prototype.kind kind →
      MeasuredInside (.array a) (.array { a with prototype := a.prototype.withKind kind })
  | element {a : ArrayField} {i : Nat} {c : Component} {kind : Kind} :
      a.elements[i]? = some c → MeasuredInside c.kind kind →
      MeasuredInside (.array a) (.array { a with elements := a.elements.set i (c.withKind kind) })
  | required {g : Group} {i : Nat} {c : Component} {kind : Kind} :
      g.required[i]? = some c → MeasuredInside c.kind kind →
      MeasuredInside (.group g) (.group { g with required := g.required.set i (c.withKind kind) })
  | optional {g : Group} {i : Nat} {c : Component} {kind : Kind} :
      g.optional[i]? = some c → MeasuredInside c.kind kind →
      MeasuredInside (.group g) (.group { g with optional := g.optional.set i (c.withKind kind) })

theorem sizeAll_set {cs : List Component} {i : Nat} {c : Component} {kind : Kind}
    (hc : cs[i]? = some c) (hsize : kind.size = c.kind.size) :
    sizeAll (cs.set i (c.withKind kind)) = sizeAll cs := by
  induction cs generalizing i with
  | nil => cases hc
  | cons d cs ih =>
      cases i with
      | zero =>
          cases hc
          simp [sizeAll, hsize, Named.withKind]
      | succ i => simp [sizeAll, ih hc]

theorem sizePresent_set {marks : List Bool} {cs : List Component} {i : Nat} {c : Component}
    {kind : Kind} (hc : cs[i]? = some c) (hsize : kind.size = c.kind.size) :
    sizePresent marks (cs.set i (c.withKind kind)) = sizePresent marks cs := by
  induction cs generalizing marks i with
  | nil => cases hc
  | cons d cs ih =>
      cases marks with
      | nil => cases i <;> rfl
      | cons present marks =>
          cases i with
          | zero =>
              cases hc
              simp [sizePresent, hsize, Named.withKind]
          | succ i => simp [sizePresent, ih hc]

/-- Measuring a node changes nothing but what is remembered. -/
theorem MeasuredInside.size_variant {k k' : Kind} (h : MeasuredInside k k') :
    k'.size = k.size ∧ k'.variant = k.variant := by
  induction h with
  | here k => exact ⟨k.size_measure, k.variant_measure⟩
  | prototype _ _ => exact ⟨rfl, rfl⟩
  | element hc _ ih => exact ⟨by simp [size, sizeAll_set hc ih.1], rfl⟩
  | required hc _ ih => exact ⟨by simp [size, sizeAll_set hc ih.1], rfl⟩
  | optional hc _ ih => exact ⟨by simp [size, sizePresent_set hc ih.1], rfl⟩

theorem WellFormed.measuredInside {k k' : Kind} (hk : k.WellFormed) (h : MeasuredInside k k') :
    k'.WellFormed := by
  induction h with
  | here k => exact hk.measure
  | @prototype a kind h ih =>
      cases hk with
      | array hcons hproto hwf =>
          have hvariant := h.size_variant.2
          refine .array ?_ (ih hproto) hwf
          exact { hcons with
            variant_eq := by
              intro c hc
              exact (hcons.variant_eq c hc).trans hvariant.symm }
  | @element a i c kind hc h ih =>
      have hsize := (MeasuredInside.element hc h).size_variant.1
      have hmem := List.mem_of_getElem? hc
      cases hk with
      | array hcons hproto hwf =>
          refine .array ?_ hproto (forall_mem_set hwf (ih (hwf c hmem)))
          exact { hcons with
            value_eq := hcons.value_eq.trans (by simp [ArrayOf.len])
            len_le := by simpa [ArrayOf.len] using hcons.len_le
            variant_eq := forall_mem_set hcons.variant_eq
              (h.size_variant.2.trans (hcons.variant_eq c hmem))
            cachedSize_eq := by
              intro n hn
              rw [hsize]
              exact hcons.cachedSize_eq n hn }
  | @required g i c kind hc h ih =>
      have hsize := (MeasuredInside.required hc h).size_variant.1
      cases hk with
      | group hcons hreq hopt =>
          refine .group ?_ (forall_mem_set hreq (ih (hreq c (List.mem_of_getElem? hc)))) hopt
          exact { hcons with
            cachedSize_eq := by
              intro n hn
              rw [hsize]
              exact hcons.cachedSize_eq n hn }
  | @optional g i c kind hc h ih =>
      have hsize := (MeasuredInside.optional hc h).size_variant.1
      cases hk with
      | group hcons hreq hopt =>
          refine .group ?_ hreq (forall_mem_set hopt (ih (hopt c (List.mem_of_getElem? hc))))
          exact { hcons with
            len_indicator := by simpa using hcons.len_indicator
            cachedSize_eq := by
              intro n hn
              rw [hsize]
              exact hcons.cachedSize_eq n hn }

end Kind

/-! ### The components that come up -/

/-- A leaf that may hold any value of its sort. -/
def Scalar.IsFree : Scalar → Prop
  | bounded _ | bits _ | digest _ => False
  | _ => True

/-- The components that come up: new ones, what the operations leave, and parts of such. -/
inductive Kind.Reachable : Kind → Prop
  | free {v : Scalar} : v.IsFree → Reachable (.scalar v)
  | bounded {r : BoundedInt} : r.Reachable → Reachable (.scalar (.bounded r))
  | bits {b : BitSet} : b.Reachable → Reachable (.scalar (.bits b))
  | digest {d : Digest} : d.Reachable → Reachable (.scalar (.digest d))
  | make {prototype : Component} {minCount maxCount : Nat} {a : ArrayField} :
      Reachable prototype.kind → ArrayOf.make prototype minCount maxCount = .ok a →
      Reachable (.array a)
  | unbounded {prototype : Component} :
      Reachable prototype.kind → Reachable (.array (.unbounded prototype))
  | pushComponent {a a' : ArrayField} {c : Component} :
      Reachable (.array a) → Reachable c.kind → a.pushComponent c = .ok a' → Reachable (.array a')
  | push {ρ : Type} {a : ArrayField} {v : Variant} {f : v.Content → ρ × v.Content} :
      Reachable (.array a) → (∀ c ∈ (a.push v f).2.elements, Reachable c.kind) →
      Reachable (.array (a.push v f).2)
  | pop {a : ArrayField} : Reachable (.array a) → Reachable (.array a.pop.2)
  | modifyElement {ρ : Type} {a : ArrayField} {v : Variant} {i : Nat}
      {f : v.Content → ρ × v.Content} :
      Reachable (.array a) → (∀ c ∈ (a.modifyAs v i f).2.elements, Reachable c.kind) →
      Reachable (.array (a.modifyAs v i f).2)
  | modifyAll {σ : Type} {a : ArrayField} {v : Variant} {f : σ → v.Content → σ × v.Content}
      {s : σ} :
      Reachable (.array a) → (∀ c ∈ (a.modifyAll v f s).2.elements, Reachable c.kind) →
      Reachable (.array (a.modifyAll v f s).2)
  | empty : Reachable (.group .empty)
  | addField {g g' : Group} {c : Component} {optional : Bool} :
      Reachable (.group g) → Reachable c.kind → g.addField c optional = .ok g' →
      Reachable (.group g')
  | removeField {g g' : Group} {name : String} {c : Component} :
      Reachable (.group g) → g.removeField name = .ok (c, g') → Reachable (.group g')
  | setPresent {g g' : Group} {name : String} {present : Bool} :
      Reachable (.group g) → g.setPresent name present = .ok g' → Reachable (.group g')
  | modifyField {ρ : Type} {g : Group} {name : String} {f : Kind → ρ × Kind} :
      Reachable (.group g) → (∀ c ∈ (g.modifyField name f).2.required, Reachable c.kind) →
      (∀ c ∈ (g.modifyField name f).2.optional, Reachable c.kind) →
      Reachable (.group (g.modifyField name f).2)
  | modifyAs {ρ : Type} {g : Group} {v : Variant} {name : String} {f : v.Content → ρ × v.Content} :
      Reachable (.group g) → (∀ c ∈ (g.modifyAs v name f).2.required, Reachable c.kind) →
      (∀ c ∈ (g.modifyAs v name f).2.optional, Reachable c.kind) →
      Reachable (.group (g.modifyAs v name f).2)
  | enable {ρ : Type} {g : Group} {v : Variant} {name : String} {f : v.Content → ρ × v.Content} :
      Reachable (.group g) → (∀ c ∈ (g.enable v name f).2.required, Reachable c.kind) →
      (∀ c ∈ (g.enable v name f).2.optional, Reachable c.kind) →
      Reachable (.group (g.enable v name f).2)
  | read {k : Kind} {s : BitStream} : Reachable k → s.Reachable → Reachable (k.read s).2.1
  | clear {k : Kind} : Reachable k → Reachable k.clear
  | measure {k k' : Kind} : Reachable k → k.MeasuredInside k' → Reachable k'
  | prototype {a : ArrayField} : Reachable (.array a) → Reachable a.prototype.kind
  | element {a : ArrayField} {c : Component} :
      Reachable (.array a) → c ∈ a.elements → Reachable c.kind
  | requiredField {g : Group} {c : Component} :
      Reachable (.group g) → c ∈ g.required → Reachable c.kind
  | optionalField {g : Group} {c : Component} :
      Reachable (.group g) → c ∈ g.optional → Reachable c.kind

/-- Every component that comes up is well-formed. -/
theorem Kind.Reachable.wellFormed {k : Kind} (h : k.Reachable) : k.WellFormed := by
  induction h with
  | @free v hv => exact .scalar (by cases v <;> trivial)
  | bounded hr => exact .scalar hr.wellFormed
  | bits hb => exact .scalar hb.wellFormed
  | digest hd => exact .scalar hd.wellFormed
  | make _ hmake ih => exact ArrayOf.wellFormed_make ih hmake
  | unbounded _ ih => exact ArrayOf.wellFormed_unbounded ih
  | pushComponent _ _ hpush iha ihc => exact ArrayOf.wellFormed_pushComponent iha ihc hpush
  | push _ _ iha ihnew => exact ArrayOf.wellFormed_push iha ihnew
  | pop _ ih => exact ArrayOf.wellFormed_pop ih
  | modifyElement _ _ iha ihnew => exact ArrayOf.wellFormed_modifyAs iha ihnew
  | modifyAll _ _ iha ihnew => exact ArrayOf.wellFormed_modifyAll iha ihnew
  | empty => exact GroupOf.wellFormed_empty
  | addField _ _ hadd ihg ihc => exact GroupOf.wellFormed_addField ihg ihc hadd
  | removeField _ hremove ih => exact GroupOf.wellFormed_removeField ih hremove
  | setPresent _ hset ih => exact GroupOf.wellFormed_setPresent ih hset
  | modifyField _ _ _ ihg ihreq ihopt => exact GroupOf.wellFormed_modifyField ihg ihreq ihopt
  | modifyAs _ _ _ ihg ihreq ihopt => exact GroupOf.wellFormed_modifyAs ihg ihreq ihopt
  | enable _ _ _ ihg ihreq ihopt => exact GroupOf.wellFormed_enable ihg ihreq ihopt
  | read _ _ ih => exact ih.read _
  | clear _ ih => exact ih.clear
  | measure _ hmeasured ih => exact ih.measuredInside hmeasured
  -- parts of what came up
  | prototype _ ih =>
      cases ih with
      | array _ hproto _ => exact hproto
  | element _ hc ih =>
      cases ih with
      | array _ _ hwf => exact hwf _ hc
  | requiredField _ hc ih =>
      cases ih with
      | group _ hreq _ => exact hreq _ hc
  | optionalField _ hc ih =>
      cases ih with
      | group _ _ hopt => exact hopt _ hc

/-- The messages that come up: a message is its type and a group, and all that can be done to it
is done to the group. -/
def Message.Reachable (m : Message) : Prop := (Kind.group m.payload).Reachable

end WireTree
