/-
**Reading whatever has been received.**

The bits to be read come from anyone.  Whatever they are, a read asks for one transfer after
another, none of them wider than a transfer may be, and ends when there is nothing left to ask for,
when the bits run out, or when what has been read is refused.  So it fails only in ways that lie in
the bits received, it takes no bit twice and none that was not written, and it leaves the stream
as it was but for the read position.

What a read asks for is told in two ways.  A recording is a stream that notes down the widths of all
transfers it is asked for.  And a source that serves as a stream does, but may do whatever it likes
when it is asked for a wider transfer than there may be, is read like the stream.

A component that has been read, to its end or not, still has its shape: all that was settled when
it was assembled.

Main definitions:

* `WireTree.Recording`, `WireTree.Kind.requests` — the widths that a read asks for;
* `WireTree.BitSource.ServesAs` — sources that serve as streams do;
* `WireTree.Shape`, `WireTree.Kind.shape` — what reading cannot change.

Main results:

* `WireTree.Kind.requests_le` — no transfer that is asked for is too wide;
* `WireTree.Kind.shape_read` — reading keeps the shape;
* `WireTree.reading_is_safe` — **reading is safe**.
-/

import WireTree.Proofs.Component.Layout
import WireTree.Proofs.Component.Sources
import WireTree.Proofs.Component.Transfers

set_option relaxedAutoImplicit false
set_option autoImplicit false

namespace WireTree

/-! ### What a read asks for -/

/-- A transfer from a stream that is not too wide fails only for want of bits. -/
theorem BitStream.ofRead_of_readBits {s : BitStream} {width : Nat} {e : WireError}
    (hwidth : width ≤ maxTransferBits) (h : (s.readBits width).1 = .error e) : e.OfRead := by
  by_cases hr : width ≤ s.remaining
  · rw [readBits_of_le hwidth hr] at h
    cases h
  · rw [readBits_of_remaining_lt hwidth (by omega)] at h
    cases h
    exact ⟨by omega, hwidth⟩

/-- A stream that notes down what it is asked for. -/
structure Recording where
  /-- The stream. -/
  stream : BitStream
  /-- The widths of the transfers that it has been asked for, in order. -/
  widths : List Nat

instance : BitSource Recording where
  readBits r width :=
    match r.stream.readBits width with
    | (result, stream) => (result, ⟨stream, r.widths ++ [width]⟩)
  maxTextBytes r := r.stream.maxTextBytes

/-- The widths of the transfers that a read asks for, in order. -/
def Kind.requests (k : Kind) (s : BitStream) : List Nat :=
  (k.read (⟨s, []⟩ : Recording)).2.2.widths

namespace BitSource

/-- The source serves transfers that are not too wide as the streams do that it stands for; on wider
ones it may do whatever it likes. -/
structure ServesAs {β : Type} [BitSource β] (view : β → BitStream) : Prop where
  /-- Transfers that are not too wide. -/
  readBits : ∀ (t : β) {width : Nat}, width ≤ maxTransferBits →
    (readBits t width).1 = ((view t).readBits width).1 ∧
      view (readBits t width).2 = ((view t).readBits width).2
  /-- The limit on texts. -/
  maxTextBytes : ∀ t : β, maxTextBytes t = (view t).maxTextBytes

theorem ServesAs.serveAlike {β : Type} [BitSource β] {view : β → BitStream} (h : ServesAs view) :
    ServeAlike fun (t : β) (s : BitStream) => view t = s where
  readBits := by
    rintro t _ width hwidth rfl
    obtain ⟨hresult, hview⟩ := h.readBits t hwidth
    rw [readBits_stream]
    rcases ht : BitSource.readBits t width with ⟨r, t'⟩
    rcases hs : (view t).readBits width with ⟨r', s'⟩
    rw [ht, hs] at hresult hview
    cases hresult
    cases r with
    | ok word => exact .ok hview
    | error e => exact .error (BitStream.ofRead_of_readBits hwidth (by rw [hs])) hview
  maxTextBytes := by
    rintro t _ rfl
    exact h.maxTextBytes t

theorem servesAs_stream : ServesAs (id : BitStream → BitStream) :=
  ⟨fun _ _ _ => ⟨rfl, rfl⟩, fun _ => rfl⟩

theorem servesAs_recording : ServesAs Recording.stream := ⟨fun _ _ _ => ⟨rfl, rfl⟩, fun _ => rfl⟩

/-- A recording of which no width is too large serves as its stream does, and stays one. -/
theorem serveAlike_recording : ServeAlike fun (r : Recording) (s : BitStream) =>
    r.stream = s ∧ ∀ width ∈ r.widths, width ≤ maxTransferBits where
  readBits := by
    rintro r s width hwidth ⟨hstream, hnarrow⟩
    have hnarrow' : ∀ w ∈ r.widths ++ [width], w ≤ maxTransferBits := by
      intro w hw
      rcases List.mem_append.1 hw with hw | hw
      · exact hnarrow w hw
      · rw [List.mem_singleton.1 hw]
        exact hwidth
    rcases (servesAs_recording.serveAlike.readBits hwidth hstream).cases with
      ⟨e, r', s', hr, hs, he, hrs⟩ | ⟨word, r', s', hr, hs, hrs⟩
    · rw [hr, hs]
      refine .error he ⟨hrs, ?_⟩
      rwa [show r'.widths = _ from congrArg (fun x => x.2.widths) hr.symm]
    · rw [hr, hs]
      refine .ok ⟨hrs, ?_⟩
      rwa [show r'.widths = _ from congrArg (fun x => x.2.widths) hr.symm]
  maxTextBytes := by
    rintro r _ ⟨rfl, -⟩
    rfl

end BitSource

namespace Kind

variable {k : Kind} {s : BitStream}

/-- No transfer that is asked for is too wide. -/
theorem requests_le (hk : k.WellFormed) (s : BitStream) :
    ∀ width ∈ k.requests s, width ≤ maxTransferBits := by
  have hnone : ∀ width ∈ (⟨s, []⟩ : Recording).widths, width ≤ maxTransferBits :=
    List.forall_mem_nil _
  have hread := read_alongside BitSource.serveAlike_recording hk ⟨rfl, hnone⟩
  rcases hread.cases_beside with ⟨e, k', r, s', hr, -, -, -, h⟩ | ⟨n, k', r, s', hr, -, -, h⟩ <;>
    rwa [requests, hr]

/-- A source that serves as a stream is read like the stream. -/
theorem read_eq_of_servesAs (hk : k.WellFormed) {β : Type} [BitSource β] {view : β → BitStream}
    (h : BitSource.ServesAs view) (t : β) : (k.read t).1 = (k.read (view t)).1 ∧
      (k.read t).2.1 = (k.read (view t)).2.1 ∧ view (k.read t).2.2 = (k.read (view t)).2.2 := by
  rcases (read_alongside h.serveAlike hk rfl).cases_beside with
    ⟨e, k', t', s', ht, hs, -, hts⟩ | ⟨n, k', t', s', ht, hs, hts⟩ <;> rw [ht, hs] <;>
    exact ⟨rfl, rfl, hts⟩

theorem ofRead_of_read (hk : k.WellFormed) {e : WireError} (h : (k.read s).1 = .error e) :
    e.OfRead := by
  rcases (read_alongside BitSource.servesAs_stream.serveAlike hk (rfl : id s = s)).cases_beside with
    ⟨e', k', s', _, hs, -, he, -⟩ | ⟨n, k', s', _, hs, -, -⟩ <;> rw [hs] at h <;> cases h
  exact he

/-- A read moves nothing but the read position, forward and not past the bits written. -/
theorem exists_advance_of_read (k : Kind) (hs : s.readPos ≤ s.writePos) :
    ∃ n, (k.read s).2.2 = s.advance n ∧ s.readPos + n ≤ s.writePos := by
  refine k.read_preserves (P := fun s' => ∃ n, s' = s.advance n ∧ s.readPos + n ≤ s.writePos) ?_
    ⟨0, rfl, hs⟩
  rintro _ count ⟨n, rfl, hn⟩
  rcases hread : (s.advance n).readBits count with ⟨e | word, s'⟩
  · obtain rfl := BitStream.eq_of_readBits_error hread
    exact ⟨n, rfl, hn⟩
  · obtain ⟨rfl, hcount⟩ := BitStream.eq_advance_of_readBits hread
    refine ⟨n + count, BitStream.advance_advance .., ?_⟩
    rw [BitStream.remaining_advance] at hcount
    simp only [BitStream.remaining] at hcount
    omega

end Kind

/-! ### The layout of a leaf -/

@[simp] theorem Scalar.layout_fill (v : Scalar) (words : List UInt32) :
    (v.fill words).layout = v.layout := by
  unfold fill
  split <;> simp [layout, variant, BoundedInt.ofOffset]

/-- Reading keeps the layout of a leaf. -/
theorem Scalar.layout_read (v : Scalar) (s : BitStream) : (v.read s).2.1.layout = v.layout := by
  by_cases htext : v.variant = .text
  · obtain ⟨t, rfl⟩ := eq_text_of_variant htext
    rw [read, BitSource.readText_stream]
    rcases s.readText with ⟨_ | t', s₁⟩ <;> rfl
  · rw [read_of_ne_text htext]
    rcases s.readWords v.widths with ⟨_ | words, s₁⟩
    · rfl
    · exact v.layout_fill words

/-! ### The shape -/

/-- What was settled when a tree was assembled: the layouts of its leaves, the bounds and the
prototypes of its arrays, the names of the fields of its groups and their places, and the number of
presence marks. -/
inductive Shape where
  /-- A leaf of a layout. -/
  | leaf (layout : Layout)
  /-- An array with a prototype, bounds, and the bounds of its count field. -/
  | array (prototype : Component) (minCount maxCount : Nat) (lower upper : Int32)
  /-- A group of required and optional fields, with a table of names and a number of marks. -/
  | group (required optional : List (Named Shape)) (slots : List (String × Slot)) (marks : Nat)

namespace Kind

mutual

/-- The shape of a tree. -/
def shape : Kind → Shape
  | scalar v => .leaf v.layout
  | array a => .array a.prototype a.minCount a.maxCount a.countField.lower a.countField.upper
  | group g => .group (shapeAll g.required) (shapeAll g.optional) g.slots g.indicator.len
termination_by structural k => k

/-- The shapes of a list of components, with their names. -/
def shapeAll : List Component → List (Named Shape)
  | [] => []
  | c :: cs => ⟨c.name, shape c.kind⟩ :: shapeAll cs
termination_by structural cs => cs

end

theorem shapeAll_readAll {cs : List Component}
    (hcs : ∀ c ∈ cs, ∀ s, (c.kind.read s).2.1.shape = c.kind.shape) (s : BitStream) :
    shapeAll (readAll cs s).2.1 = shapeAll cs := by
  induction cs generalizing s with
  | nil => rfl
  | cons c cs ih =>
      obtain ⟨hc, hcs⟩ := List.forall_mem_cons.1 hcs
      obtain ⟨cs', heq, hrest⟩ := readAll_cons_fields c cs s
      rw [heq, shapeAll, shapeAll, ← hc s]
      rcases hrest with rfl | ⟨s₁, rfl⟩
      · rfl
      · rw [ih hcs s₁]
        rfl

theorem shapeAll_readPresent {cs : List Component}
    (hcs : ∀ c ∈ cs, ∀ s, (c.kind.read s).2.1.shape = c.kind.shape) (marks : List Bool)
    (s : BitStream) : shapeAll (readPresent marks cs s).2.1 = shapeAll cs := by
  induction cs generalizing marks s with
  | nil => cases marks <;> rfl
  | cons c cs ih =>
      obtain ⟨hc, hcs⟩ := List.forall_mem_cons.1 hcs
      rcases marks with _ | ⟨present, marks⟩
      · rfl
      · obtain ⟨cs', heq, hrest⟩ := readPresent_cons_fields present marks c cs s
        have hhead : shapeAll ((if present then c.withKind (c.kind.read s).2.1 else c) :: cs) =
            shapeAll (c :: cs) := by
          split
          · rw [shapeAll, shapeAll, ← hc s]
            rfl
          · rfl
        rcases hrest with rfl | ⟨s₁, rfl⟩
        · rw [heq, hhead]
        · rw [heq, ← hhead, shapeAll, shapeAll, ih hcs marks s₁]

/-- Reading keeps the shape, also when it fails. -/
theorem shape_read (k : Kind) (s : BitStream) : (k.read s).2.1.shape = k.shape := by
  induction k using Kind.induction generalizing s with
  | scalar v => exact congrArg Shape.leaf (v.layout_read s)
  | array a _ _ =>
      rw [read_array]
      rcases a.readCount s with ⟨_ | count, s₁⟩
      · rfl
      · simp only
        split
        · split <;> rfl
        · rfl
  | group g ihreq ihopt =>
      have hreq := shapeAll_readAll (fun c hc => ihreq c hc) s
      rw [read]
      simp only [GroupOf.forget]
      rcases hr : readAll g.required s with ⟨_ | n, required, s₁⟩ <;> rw [hr] at hreq
      · simp only [shape, hreq]
      · have hmarks := g.indicator.len_read s₁
        simp only
        rcases hm : g.indicator.read s₁ with ⟨_ | m, indicator, s₂⟩ <;>
          rw [hm] at hmarks <;> simp only at hmarks
        · simp only [shape, hreq, hmarks]
        · have hopt := shapeAll_readPresent (fun c hc => ihopt c hc) indicator.toList s₂
          simp only
          rcases ho : readPresent indicator.toList g.optional s₂ with ⟨_ | l, optional, s₃⟩ <;>
            rw [ho] at hopt <;> simp only [shape, hreq, hmarks, hopt]

end Kind

/-! ### Reading is safe -/

/-- **Reading is safe.**  Whatever component has come up, and whatever bits, positions and limits
the stream has that it is read from: the read fails in ways that lie in the bits received only; no
transfer that it asks for is wider than 32 bits, and so the same is read from a source that serves
as the stream does up to that width and does whatever it likes beyond; it moves nothing in the
stream but the read position, forward and not past the bits written, by the number it tells if it
goes through; and the component keeps its shape. -/
theorem reading_is_safe {k : Kind} {s : BitStream} (hk : k.Reachable) (hs : s.Reachable) :
    (∀ e, (k.read s).1 = .error e → e.OfRead ∧ e.isProtocolViolation = true) ∧
    (∀ width ∈ k.requests s, width ≤ 32) ∧
    (∀ (β : Type) [BitSource β] (view : β → BitStream), BitSource.ServesAs view →
      ∀ t, view t = s → (k.read t).1 = (k.read s).1 ∧ (k.read t).2.1 = (k.read s).2.1 ∧
        view (k.read t).2.2 = (k.read s).2.2) ∧
    (∃ n, (k.read s).2.2 = s.advance n ∧ s.readPos + n ≤ s.writePos ∧
      ∀ m, (k.read s).1 = .ok m → m = n) ∧
    (k.read s).2.1.shape = k.shape := by
  refine ⟨?_, Kind.requests_le hk.wellFormed s, ?_, ?_, k.shape_read s⟩
  · intro e he
    have hread := Kind.ofRead_of_read hk.wellFormed he
    exact ⟨hread, hread.isProtocolViolation⟩
  · rintro β _ view hview t rfl
    exact Kind.read_eq_of_servesAs hk.wellFormed hview t
  · obtain ⟨n, hn, hle⟩ := k.exists_advance_of_read hs.wellFormed.readPos_le
    refine ⟨n, hn, hle, ?_⟩
    intro m hm
    -- the number told is the length of the encoding that was taken
    have hwf : (k.read s).2.1.WellFormed := hk.wellFormed.read s
    obtain ⟨hsize, htake, -⟩ := Kind.takes_of_read hk.wellFormed hs.wellFormed
      (show k.read s = (.ok m, (k.read s).2.1, (k.read s).2.2) from Prod.ext hm rfl)
    have hpos := congrArg BitStream.readPos (htake.eq_advance.symm.trans hn)
    rw [hwf.length_encode, ← hsize] at hpos
    exact Nat.add_left_cancel hpos

/-- A count out of bounds, behind three bits that have been read, in a stream without a limit on
texts: the two bits of the count are all that is asked for, of the stream as of a recording. -/
theorem reading_is_safe_count : ∃ (k : Kind) (s : BitStream), k.Reachable ∧ s.Reachable ∧
    s.readPos = 3 ∧ s.maxTextBytes = noTextLimit ∧
    (k.read s).1 = .error (.countOutOfRange 4 1 3) ∧ WireError.OfRead (.countOutOfRange 4 1 3) ∧
    k.requests s = [2] ∧ (∀ width ∈ k.requests s, width ≤ 32) ∧
    (k.read (⟨s, []⟩ : Recording)).1 = .error (.countOutOfRange 4 1 3) ∧
    (∃ n, (k.read s).2.2 = s.advance n ∧ s.readPos + n ≤ s.writePos) ∧
    (k.read s).2.1.shape = k.shape := by
  have htext : (Kind.scalar (.text "")).Reachable := .free trivial
  have hk : (Kind.array ⟨⟨none, .scalar (.text "")⟩, 1, 3, ⟨0, 1, 3, none, by decide⟩, [],
      none⟩).Reachable :=
    .make htext (show ArrayOf.make ⟨none, .scalar (.text "")⟩ 1 3 = _ from rfl)
  have hs : ((BitStream.perform (BitStream.Origin.received #[184]).stream
      (.read 3)).2.withMaxTextBytes noTextLimit).Reachable :=
    .withMaxTextBytes noTextLimit (.perform _ (.origin _))
  obtain ⟨herror, hrequests, hsource, ⟨n, hn, hle, -⟩, hshape⟩ := reading_is_safe hk hs
  have hrecorded := (hsource _ _ BitSource.servesAs_recording ⟨_, []⟩ rfl).1
  exact ⟨_, _, hk, hs, rfl, rfl, rfl, (herror _ rfl).1, rfl, hrequests, hrecorded, ⟨n, hn, hle⟩,
    hshape⟩

end WireTree
