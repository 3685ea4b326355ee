/-
**Reading does not depend on what stood there before.**

A component is read into one that is there already, with values, presence marks and elements of its
own, perhaps half read from another message.  None of this has an influence: two components of one
layout, read from the same stream, fail alike or go through alike, leave the same stream, and after
a read that goes through a reader sees the same in both.

The proof follows the recursion of the reader.  All decisions are taken on words that have just been
read, and on bounds and lengths, which are part of the layout; what may differ, such as a field left
absent, is not in the view.

Main definitions:

* `WireTree.SameRead` — two reads that end alike;
* `WireTree.Kind.ReadAlike` — two components that are always read alike.

Main results:

* `WireTree.Scalar.sameRead`, `WireTree.BitSet.sameRead` — leaves and presence marks;
* `WireTree.Kind.readAlike` — trees;
* `WireTree.read_independent` — **reading is independent of the contents**.
-/

import WireTree.Proofs.Component.RoundTrip

set_option relaxedAutoImplicit false
set_option autoImplicit false

namespace WireTree

/-! ### Reads that end alike -/

/-- Two reads that end alike: either both fail in the same way, or both have taken the same number
of bits and what they have read is related.  They leave the same stream. -/
inductive SameRead {α : Type} (R : α → α → Prop) :
    Outcome (α × BitStream) Nat → Outcome (α × BitStream) Nat → Prop
  | error (e : WireError) (x y : α) (s : BitStream) : SameRead R (.error e, x, s) (.error e, y, s)
  | ok {x y : α} (n : Nat) (s : BitStream) : R x y → SameRead R (.ok n, x, s) (.ok n, y, s)

theorem SameRead.cases {α : Type} {R : α → α → Prop} {r r' : Outcome (α × BitStream) Nat}
    (h : SameRead R r r') : (∃ e x y s, r = (.error e, x, s) ∧ r' = (.error e, y, s)) ∨
      ∃ n x y s, r = (.ok n, x, s) ∧ r' = (.ok n, y, s) ∧ R x y := by
  cases h with
  | error e x y s => exact .inl ⟨e, x, y, s, rfl, rfl⟩
  | ok n s hR => exact .inr ⟨n, _, _, s, rfl, rfl, hR⟩

/-! ### Leaves and presence marks -/

namespace Scalar

variable {u v : Scalar}

/-- The same words give leaves of one layout the same value. -/
theorem forget_fill_congr (hu : u.WellFormed) (hv : v.WellFormed) (hl : u.layout = v.layout)
    (htext : v.variant ≠ .text) {words : List UInt32} (hlen : words.length = v.widths.length) :
    (u.fill words).forget = (v.fill words).forget := by
  cases v <;> cases u <;>
    first
    | exact absurd rfl htext
    | (simp [layout, variant] at hl; done)
    | skip
  case bool.bool | u8.u8 | s8.s8 | u16.u16 | s16.s16 | u32.u32 | s32.s32 | float.float =>
      obtain ⟨word, rfl⟩ := List.length_eq_one_iff.1 hlen
      rfl
  case bounded.bounded r r' =>
      obtain ⟨word, rfl⟩ := List.length_eq_one_iff.1 hlen
      simp only [layout, Layout.bounded.injEq] at hl
      simp [fill, forget, BoundedInt.forget, BoundedInt.ofOffset, hl.1, hl.2]
  case vec2.vec2 =>
      obtain ⟨x, y, rfl⟩ := List.length_eq_two.1 hlen
      rfl
  case vec3.vec3 =>
      obtain ⟨x, y, z, rfl⟩ := List.length_eq_three.1 hlen
      rfl
  case bits.bits b b' =>
      have hlen' : b'.len = b.len := by simpa [layout] using hl
      simp [fill, forget, BitSet.withWords, hlen']
  case digest.digest d d' =>
      have hbytes : (d'.ofWords words).bytes = (d.ofWords words).bytes := by
        rw [Digest.ofWords, Digest.ofWords, Digest.bytes_setBytes, Digest.bytes_setBytes]
      exact congrArg digest (Digest.WellFormed.eq_of_bytes_eq
        (Digest.WellFormed.setBytes hu _) (Digest.WellFormed.setBytes hv _) hbytes)

theorem variant_eq_of_layout (hl : u.layout = v.layout) : u.variant = v.variant := by
  cases u <;> cases v <;> simp [layout, variant] at hl ⊢

/-- Leaves of one layout are read alike. -/
theorem sameRead (hu : u.WellFormed) (hv : v.WellFormed) (hl : u.layout = v.layout)
    (s : BitStream) : SameRead (fun u v => u.forget = v.forget) (u.read s) (v.read s) := by
  have hvariant := variant_eq_of_layout hl
  by_cases htext : v.variant = .text
  · obtain ⟨t, rfl⟩ := eq_text_of_variant htext
    obtain ⟨t', rfl⟩ := eq_text_of_variant (hvariant.trans htext)
    rw [read, read, BitSource.readText_stream]
    rcases s.readText with ⟨e | t'', s'⟩
    · exact .error e _ _ s'
    · exact .ok _ s' rfl
  · have hwidths := widths_eq_of_layout hu hv hl htext
    have hsize : u.measure.1 = v.measure.1 := by
      rw [hu.measure_fst, hv.measure_fst, ← hu.totalWidth_cells, ← hv.totalWidth_cells]
      exact congrArg List.sum hwidths
    rw [read_of_ne_text (hvariant ▸ htext), read_of_ne_text htext, hwidths, hsize]
    rcases hr : s.readWords v.widths with ⟨e | words, s'⟩
    · exact .error e u v s'
    · have hlen := (BitStream.forall₂_lt_of_readWords hr).length_eq
      exact .ok _ s' (forget_fill_congr hu hv hl htext hlen)

end Scalar

/-- Sets of one length are read alike, and come out as the same set. -/
theorem BitSet.sameRead {b b' : BitSet} (hb : b.WellFormed) (hb' : b'.WellFormed)
    (hlen : b.len = b'.len) (s : BitStream) : SameRead Eq (b.read s) (b'.read s) := by
  rw [read, read, BitSource.readWords_stream, BitSource.readWords_stream,
    widths_eq_of_len hb' hb hlen]
  rcases s.readWords b'.widths with ⟨e | words, s'⟩
  · exact .error e b b' s'
  · simp only [hlen]
    refine .ok _ s' ?_
    rw [withWords, withWords, hlen]

/-! ### The number of elements -/

/-- Arrays with the same bounds take the same number of elements. -/
theorem ArrayOf.readCount_congr {a b : ArrayField} (ha : a.Consistent) (hb : b.Consistent)
    (hmin : a.minCount = b.minCount) (hmax : a.maxCount = b.maxCount) (s : BitStream) :
    a.readCount s = b.readCount s := by
  have hlower : a.countField.lower = b.countField.lower := by
    rw [ha.lower_eq_ofNat, hb.lower_eq_ofNat, hmin]
  have hwidth : a.countField.width = b.countField.width := by
    rw [ha.width_eq, hb.width_eq, hmin, hmax]
  rw [readCount, readCount, BitSource.readBits_stream, BitSource.readBits_stream, hwidth]
  rcases s.readBits b.countField.width with ⟨e | word, s'⟩
  · rfl
  · simp only [BoundedInt.ofOffset, hlower]

/-! ### Trees -/

namespace Kind

/-- Two components that are always read alike: whatever the stream, a reader sees the same in
both. -/
def ReadAlike (k k' : Kind) : Prop :=
  ∀ s : BitStream, SameRead (fun k k' => k.view = k'.view) (k.read s) (k'.read s)

variable {cs ds : List Component}

theorem sameRead_readAll
    (h : List.Forall₂ (fun c d : Component => c.kind.ReadAlike d.kind) cs ds) (s : BitStream) :
    SameRead (fun cs ds => viewAll cs = viewAll ds) (readAll cs s) (readAll ds s) := by
  induction h generalizing s with
  | nil => exact .ok 0 s rfl
  | @cons c d cs ds hc _ ih =>
      rw [readAll, readAll]
      rcases (hc s).cases with ⟨e, k, k', s₁, h₁, h₂⟩ | ⟨n, k, k', s₁, h₁, h₂, hview⟩ <;>
        rw [h₁, h₂]
      · exact .error e _ _ s₁
      · simp only
        rcases (ih s₁).cases with ⟨e, cs', ds', s₂, h₃, h₄⟩ | ⟨m, cs', ds', s₂, h₃, h₄, hviews⟩ <;>
          rw [h₃, h₄]
        · exact .error e _ _ s₂
        · refine .ok _ s₂ ?_
          rw [viewAll, viewAll, hviews]
          exact congrArg (· :: viewAll ds') hview

/-- Present fields are read alike by the same marks. -/
theorem sameRead_readPresent
    (h : List.Forall₂ (fun c d : Component => c.kind.ReadAlike d.kind) cs ds) (marks : List Bool)
    (s : BitStream) : SameRead (fun cs ds => viewPresent marks cs = viewPresent marks ds)
      (readPresent marks cs s) (readPresent marks ds s) := by
  induction h generalizing marks s with
  | nil => cases marks <;> exact .ok 0 s rfl
  | @cons c d cs ds hc _ ih =>
      rcases marks with _ | ⟨present, marks⟩
      · exact .ok 0 s rfl
      · rw [readPresent, readPresent]
        cases present with
        | false =>
            rw [if_neg Bool.false_ne_true, if_neg Bool.false_ne_true]
            rcases (ih marks s).cases with
              ⟨e, cs', ds', s₁, h₁, h₂⟩ | ⟨n, cs', ds', s₁, h₁, h₂, hviews⟩ <;> rw [h₁, h₂]
            · exact .error e _ _ s₁
            · exact .ok n s₁ hviews
        | true =>
            rw [if_pos rfl, if_pos rfl]
            rcases (hc s).cases with ⟨e, k, k', s₁, h₁, h₂⟩ | ⟨n, k, k', s₁, h₁, h₂, hview⟩ <;>
              rw [h₁, h₂]
            · exact .error e _ _ s₁
            · simp only
              rcases (ih marks s₁).cases with
                ⟨e, cs', ds', s₂, h₃, h₄⟩ | ⟨m, cs', ds', s₂, h₃, h₄, hviews⟩ <;> rw [h₃, h₄]
              · exact .error e _ _ s₂
              · refine .ok _ s₂ ?_
                rw [viewPresent, viewPresent, hviews]
                exact congrArg ([·] ++ viewPresent marks ds') hview

theorem viewAll_eq (cs : List Component) : viewAll cs = cs.map fun c => c.kind.view := by
  induction cs with
  | nil => rfl
  | cons c cs ih => rw [viewAll, ih, List.map_cons]

/-- Copies of prototypes that are read alike are read alike.  What was read before, the last
first, is seen alike as well. -/
theorem sameRead_readCopies {p q : Component} (h : p.kind.ReadAlike q.kind) (count n : Nat)
    (done done' : List Component) (hdone : viewAll done = viewAll done') (s : BitStream) :
    (∃ e s', ArrayOf.readCopies (readCopy p) count n done s = (.error e, s') ∧
        ArrayOf.readCopies (readCopy q) count n done' s = (.error e, s')) ∨
      ∃ m cs ds s', ArrayOf.readCopies (readCopy p) count n done s = (.ok (m, cs), s') ∧
        ArrayOf.readCopies (readCopy q) count n done' s = (.ok (m, ds), s') ∧
        viewAll cs = viewAll ds := by
  induction count generalizing n done done' s with
  | zero =>
      refine .inr ⟨n, done.reverse, done'.reverse, s, rfl, rfl, ?_⟩
      rw [viewAll_eq, viewAll_eq] at hdone ⊢
      rw [List.map_reverse, List.map_reverse, hdone]
  | succ count ih =>
      simp only [ArrayOf.readCopies, readCopy]
      rcases (h s).cases with ⟨e, k, k', s₁, h₁, h₂⟩ | ⟨m, k, k', s₁, h₁, h₂, hview⟩ <;>
        simp only [h₁, h₂]
      · exact .inl ⟨e, s₁, rfl, rfl⟩
      · refine ih (n + m) _ _ ?_ s₁
        rw [viewAll, viewAll, hdone]
        exact congrArg (· :: viewAll done') hview

/-- Lists of fields of one layout are read alike, field by field. -/
theorem forall₂_readAlike (hcs : ∀ c ∈ cs, ∀ k : Kind, k.WellFormed → c.kind.layout = k.layout →
      c.kind.ReadAlike k) (hds : ∀ d ∈ ds, d.kind.WellFormed) (hl : layoutAll cs = layoutAll ds) :
    List.Forall₂ (fun c d : Component => c.kind.ReadAlike d.kind) cs ds := by
  induction cs generalizing ds with
  | nil =>
      cases ds with
      | nil => exact .nil
      | cons d ds => cases hl
  | cons c cs ih =>
      cases ds with
      | nil => cases hl
      | cons d ds =>
          obtain ⟨hc, hcs⟩ := List.forall_mem_cons.1 hcs
          obtain ⟨hd, hds⟩ := List.forall_mem_cons.1 hds
          obtain ⟨hl, hls⟩ := List.cons.inj hl
          exact .cons (hc d.kind hd hl) (ih hcs hds hls)

/-- Components of one layout are read alike. -/
theorem readAlike {k : Kind} (hk : k.WellFormed) :
    ∀ k' : Kind, k'.WellFormed → k.layout = k'.layout → k.ReadAlike k' := by
  induction hk with
  | @scalar v hv =>
      intro k' hk' hl s
      obtain ⟨u, rfl, hlayout⟩ := eq_scalar_of_layout_eq hl.symm
      cases hk' with
      | scalar hu =>
          rw [read, read]
          rcases (Scalar.sameRead hv hu hlayout.symm s).cases with
            ⟨e, v', u', s', h₁, h₂⟩ | ⟨n, v', u', s', h₁, h₂, hforget⟩ <;> rw [h₁, h₂]
          · exact .error e _ _ s'
          · exact .ok n s' (congrArg View.leaf hforget)
  | @array a hcons hproto _ ih _ =>
      intro k' hk' hl s
      obtain ⟨b, rfl, hmin, hmax, hlayout⟩ := eq_array_of_layout_eq hl.symm
      cases hk' with
      | array hcons' hproto' _ =>
          have hwidth : b.countField.width = a.countField.width := by
            rw [hcons.width_eq, hcons'.width_eq, hmin, hmax]
          have hadmits (count : Nat) : b.admits count = a.admits count := by
            rw [ArrayOf.admits, ArrayOf.admits, hmin, hmax]
          have hrange (count : Nat) : b.countOutOfRange count = a.countOutOfRange count := by
            rw [ArrayOf.countOutOfRange, ArrayOf.countOutOfRange, hmin, hmax]
          rw [read_array, read_array, ArrayOf.readCount_congr hcons' hcons hmin hmax]
          rcases a.readCount s with ⟨e | count, s₁⟩
          · exact .error e _ _ s₁
          · simp only [hwidth, hadmits, hrange]
            split
            · rcases sameRead_readCopies (ih _ hproto' hlayout.symm) count a.countField.width
                [] [] rfl s₁ with
                ⟨e, s', h₁, h₂⟩ | ⟨m, cs, ds, s', h₁, h₂, hviews⟩ <;> rw [h₁, h₂]
              · exact .error e _ _ s'
              · exact .ok m s' (congrArg View.array hviews)
            · exact .error _ _ _ s₁
  | @group g hcons hreq hopt ihreq ihopt =>
      intro k' hk' hl s
      obtain ⟨f, rfl, hlreq, hlopt⟩ := eq_group_of_layout_eq hl.symm
      cases hk' with
      | group hcons' hreq' hopt' =>
          have hlen : g.indicator.len = f.indicator.len := by
            have hlength := congrArg List.length hlopt
            rw [layoutAll_eq, layoutAll_eq, List.length_map, List.length_map] at hlength
            rw [hcons.len_indicator, hcons'.len_indicator, hlength]
          simp only [read, GroupOf.forget]
          rcases (sameRead_readAll (forall₂_readAlike ihreq hreq' hlreq.symm) s).cases with
            ⟨e, cs, ds, s₁, h₁, h₂⟩ | ⟨n, cs, ds, s₁, h₁, h₂, hviews⟩ <;> rw [h₁, h₂]
          · exact .error e _ _ s₁
          · simp only
            rcases (BitSet.sameRead hcons.indicator_wellFormed hcons'.indicator_wellFormed hlen
              s₁).cases with ⟨e, b, b', s₂, h₃, h₄⟩ | ⟨m, b, b', s₂, h₃, h₄, rfl⟩ <;> rw [h₃, h₄]
            · exact .error e _ _ s₂
            · -- the marks are the same now, so the same fields follow
              simp only
              rcases (sameRead_readPresent (forall₂_readAlike ihopt hopt' hlopt.symm) b.toList
                s₂).cases with ⟨e, cs', ds', s₃, h₅, h₆⟩ | ⟨l, cs', ds', s₃, h₅, h₆, hviews'⟩ <;>
                rw [h₅, h₆]
              · exact .error e _ _ s₃
              · refine .ok _ s₃ ?_
                rw [view, view, hviews, hviews']

end Kind

/-- **Reading is independent of the contents.**  Two components of one layout, whatever they hold,
are read from a stream with the same result, the number of bits or the failure, and leave the same
stream; and after a read that goes through a reader sees the same in both. -/
theorem read_independent {k k' : Kind} (hk : k.Reachable) (hk' : k'.Reachable)
    (hl : k.layout = k'.layout) (s : BitStream) :
    (k.read s).1 = (k'.read s).1 ∧ (k.read s).2.2 = (k'.read s).2.2 ∧
      ∀ n, (k.read s).1 = .ok n → (k.read s).2.1.view = (k'.read s).2.1.view := by
  rcases (Kind.readAlike hk.wellFormed k' hk'.wellFormed hl s).cases with
    ⟨e, x, y, s', h₁, h₂⟩ | ⟨m, x, y, s', h₁, h₂, hview⟩ <;> rw [h₁, h₂]
  · refine ⟨rfl, rfl, ?_⟩
    intro n hn
    cases hn
  · exact ⟨rfl, rfl, fun _ _ => hview⟩

/-- A new group, and one with a field marked present and another field left by a read that failed,
are read alike. -/
theorem read_independent_half_read : ∃ (d k k' : Kind) (s t : BitStream) (e : WireError),
    d.Reachable ∧ k.Reachable ∧ k'.Reachable ∧ d.read t = (.error e, k', t.advance 8) ∧
    k.layout = k'.layout ∧ k.size = 9 ∧ k'.size = 10 ∧
    (k.read s).1 = .ok 10 ∧ (k'.read s).1 = .ok 10 ∧ (k.read s).2.2 = (k'.read s).2.2 ∧
    (k.read s).2.1.view = (k'.read s).2.1.view := by
  have hbyte : (Kind.scalar (.u8 0)).Reachable := .free trivial
  have hbool : (Kind.scalar (.bool false)).Reachable := .free trivial
  have hone := Kind.Reachable.addField .empty hbyte
    (show GroupOf.addField _ ⟨some "byte", _⟩ false = _ from rfl)
  have hnew := Kind.Reachable.addField hone hbool
    (show GroupOf.addField _ ⟨some "flag", _⟩ true = _ from rfl)
  have hmarked := Kind.Reachable.setPresent hnew
    (show GroupOf.setPresent _ "flag" true = _ from rfl)
  have hshort : (BitStream.Origin.received #[7]).stream.Reachable := .origin _
  have hhalf := Kind.Reachable.read hmarked hshort
  obtain ⟨hresult, hrest, hview⟩ :=
    read_independent hnew hhalf rfl (BitStream.Origin.received #[5, 192]).stream
  exact ⟨_, _, _, _, (BitStream.Origin.received #[7]).stream, _, hmarked, hnew, hhalf, rfl, rfl,
    rfl, rfl, rfl, hresult.symm.trans rfl, hrest, hview 10 rfl⟩

end WireTree
