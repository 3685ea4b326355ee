/-
**What was written is read back.**

Writer and reader are two recursions that agree on nothing but the layout.  If the components
written have their integers within the bounds, and the elements of their arrays have the layout of
the prototype, then whoever reads with a component of the same layout gets their views back, no
matter what the component held before, and takes exactly the bits that were written.

The bits say where each component ends, so this goes on for a run of components written one after
the other, and it does not matter what stands behind them.

Main definitions:

* `WireTree.Kind.Regular` — what has to hold of a node for it to be read back;
* `WireTree.Kind.Recovers` — a component is read back by all of its layout;
* `WireTree.Kind.writeEach`, `WireTree.Kind.readEach` — runs of components.

Main results:

* `WireTree.Kind.recovers` — a component is read back if all nodes that are written are regular;
* `WireTree.readEach_writeEach` — a run of components is read back.
-/

import WireTree.Proofs.Component.Transfers
import WireTree.Proofs.Component.View

set_option relaxedAutoImplicit false
set_option autoImplicit false

namespace WireTree

/-! ### The number of elements -/

/-- The number of elements is read back by every array with the same bounds. -/
theorem ArrayOf.readCount_of_unread {a b : ArrayField} {s : BitStream} (hs : s.WellFormed)
    (ha : a.Consistent) (hb : b.Consistent) (hmin : b.minCount = a.minCount)
    (hmax : b.maxCount = a.maxCount) (hadm : a.admits a.len = true) {rest : List Bool}
    (h : s.unread = Bits.ofNat a.countField.width (a.len - a.minCount) ++ rest) :
    b.readCount s = (.ok a.len, s.advance a.countField.width) := by
  obtain ⟨hle, hle'⟩ := admits_iff.1 hadm
  have hoffset := ha.toNat_offset hle
  have hlower : b.countField.lower = a.countField.lower := by
    rw [ha.lower_eq_ofNat, hb.lower_eq_ofNat, hmin]
  have hupper : b.countField.upper = a.countField.upper := by
    rw [ha.upper_eq_ofNat, hb.upper_eq_ofNat, hmax]
  have hwidth : b.countField.width = a.countField.width := by
    rw [ha.width_eq, hb.width_eq, hmin, hmax]
  have hin : a.countField.inBounds = true := by
    simp only [BoundedInt.inBounds, Bool.and_eq_true, decide_eq_true_eq, Int32.le_iff_toInt_le,
      ha.lower_eq, ha.upper_eq, ha.value_eq]
    omega
  have hlt := BoundedInt.toNat_offset_lt hin
  rw [← ha.countField_wellFormed.width_eq] at hlt
  have hc : a.countField.width ≤ maxTransferBits := by
    rw [ha.countField_wellFormed.width_eq]
    exact bitsForSpan_le _ _
  rw [← hoffset] at h
  have hread := BitStream.readBits_of_unread hs hc h
  rw [Nat.mod_eq_of_lt hlt, UInt32.ofNat_toNat] at hread
  have hvalue : (b.countField.ofOffset a.countField.offset).value = a.countField.value :=
    (BoundedInt.forget_eq_forget_iff.1 (BoundedInt.forget_ofOffset_offset hlower hupper)).1
  refine readCount_eq_ok_iff.2 ⟨_, by rw [hwidth]; exact hread, ?_⟩
  rw [hvalue, ha.value_eq, Int.toNat_natCast]

namespace Kind

/-! ### Reading back -/

/-- What has to hold of a node for it to be read back: an integer lies within its bounds, and the
elements of an array have the layout of its prototype. -/
def Regular : Kind → Prop
  | scalar v => v.InBounds
  | array a => ∀ c ∈ a.elements, c.kind.layout = a.prototype.kind.layout
  | group _ => True

/-- Every component of the layout of `c`, whatever it holds, reads `c` back and takes just its
bits. -/
def Recovers (c : Kind) : Prop :=
  ∀ (d : Kind) (s : BitStream) (rest : List Bool), d.WellFormed → d.layout = c.layout →
    s.WellFormed → c.EmitsOnly (Sendable s.maxTextBytes) → s.unread = c.encode ++ rest →
    ∃ d', d.read s = (.ok c.size, d', s.advance c.size) ∧ d'.view = c.view

variable {s : BitStream} {rest : List Bool}

theorem readAll_of_unread {cs ds : List Component} (hrec : ∀ c ∈ cs, c.kind.Recovers)
    (hcs : ∀ c ∈ cs, c.kind.WellFormed) (hds : ∀ d ∈ ds, d.kind.WellFormed)
    (hl : layoutAll ds = layoutAll cs) (hs : s.WellFormed)
    (hsend : ∀ c ∈ cs, c.kind.EmitsOnly (Sendable s.maxTextBytes))
    (h : s.unread = encodeAll cs ++ rest) :
    ∃ ds', readAll ds s = (.ok (sizeAll cs), ds', s.advance (sizeAll cs)) ∧
      viewAll ds' = viewAll cs := by
  induction cs generalizing ds s with
  | nil =>
      cases ds with
      | nil => exact ⟨[], rfl, rfl⟩
      | cons d ds => cases hl
  | cons c cs ih =>
      cases ds with
      | nil => cases hl
      | cons d ds =>
          obtain ⟨hrec, hrecs⟩ := List.forall_mem_cons.1 hrec
          obtain ⟨hc, hcs⟩ := List.forall_mem_cons.1 hcs
          obtain ⟨hd, hds⟩ := List.forall_mem_cons.1 hds
          obtain ⟨hsend, hsends⟩ := List.forall_mem_cons.1 hsend
          obtain ⟨hl, hls⟩ := List.cons.inj hl
          rw [encodeAll, List.append_assoc] at h
          obtain ⟨d', hread, hview⟩ := hrec d.kind s _ hd hl hs hsend h
          obtain ⟨hs', h'⟩ := hs.advance hc.length_encode h
          obtain ⟨ds', hreads, hviews⟩ := ih hrecs hcs hds hls hs' hsends h'
          rw [BitStream.advance_advance] at hreads
          refine ⟨d.withKind d' :: ds', readAll_cons_eq_ok_iff.2
            ⟨_, d', _, _, ds', hread, hreads, rfl, rfl⟩, ?_⟩
          rw [viewAll, viewAll, hviews, ← hview]
          rfl

theorem readPresent_of_unread {marks : List Bool} {cs ds : List Component}
    (hrec : ∀ c ∈ marked marks cs, c.kind.Recovers) (hcs : ∀ c ∈ cs, c.kind.WellFormed)
    (hds : ∀ d ∈ ds, d.kind.WellFormed) (hl : layoutAll ds = layoutAll cs) (hs : s.WellFormed)
    (hsend : ∀ c ∈ marked marks cs, c.kind.EmitsOnly (Sendable s.maxTextBytes))
    (h : s.unread = encodeAll (marked marks cs) ++ rest) :
    ∃ ds', readPresent marks ds s =
        (.ok (sizeAll (marked marks cs)), ds', s.advance (sizeAll (marked marks cs))) ∧
      viewAll (marked marks ds') = viewAll (marked marks cs) := by
  induction cs generalizing marks ds s with
  | nil =>
      cases ds with
      | nil => exact ⟨[], by rcases marks with _ | ⟨_, marks⟩ <;> rfl, rfl⟩
      | cons d ds => cases hl
  | cons c cs ih =>
      cases ds with
      | nil => cases hl
      | cons d ds =>
          obtain ⟨hc, hcs⟩ := List.forall_mem_cons.1 hcs
          obtain ⟨hd, hds⟩ := List.forall_mem_cons.1 hds
          obtain ⟨hl, hls⟩ := List.cons.inj hl
          rcases marks with _ | ⟨_ | _, marks⟩
          · exact ⟨d :: ds, rfl, by rw [marked_unmarked, marked_unmarked]⟩
          · rw [marked_cons_false] at hrec hsend h ⊢
            obtain ⟨ds', hreads, hviews⟩ := ih hrec hcs hds hls hs hsend h
            exact ⟨d :: ds', readPresent_cons_false_eq_ok_iff.2 ⟨ds', hreads, rfl⟩, hviews⟩
          · rw [marked_cons_true] at hrec hsend h ⊢
            obtain ⟨hrec, hrecs⟩ := List.forall_mem_cons.1 hrec
            obtain ⟨hsend, hsends⟩ := List.forall_mem_cons.1 hsend
            rw [encodeAll, List.append_assoc] at h
            obtain ⟨d', hread, hview⟩ := hrec d.kind s _ hd hl hs hsend h
            obtain ⟨hs', h'⟩ := hs.advance hc.length_encode h
            obtain ⟨ds', hreads, hviews⟩ := ih hrecs hcs hds hls hs' hsends h'
            rw [BitStream.advance_advance] at hreads
            refine ⟨d.withKind d' :: ds', readPresent_cons_true_eq_ok_iff.2
              ⟨_, d', _, _, ds', hread, hreads, rfl, rfl⟩, ?_⟩
            rw [marked_cons_true, viewAll, viewAll, hviews, ← hview]
            rfl

/-- Copies of a prototype read the elements of an array back; `done` holds what was read before,
the last first. -/
theorem readCopies_of_unread {prototype : Component} {cs : List Component}
    (hrec : ∀ c ∈ cs, c.kind.Recovers) (hcs : ∀ c ∈ cs, c.kind.WellFormed)
    (hproto : prototype.kind.WellFormed)
    (hl : ∀ c ∈ cs, prototype.kind.layout = c.kind.layout) (hs : s.WellFormed)
    (hsend : ∀ c ∈ cs, c.kind.EmitsOnly (Sendable s.maxTextBytes))
    (h : s.unread = encodeAll cs ++ rest) (n : Nat) (done : List Component) :
    ∃ new, ArrayOf.readCopies (readCopy prototype) cs.length n done s =
        (.ok (n + sizeAll cs, done.reverse ++ new), s.advance (sizeAll cs)) ∧
      viewAll new = viewAll cs := by
  induction cs generalizing s n done with
  | nil => exact ⟨[], by rw [List.append_nil]; rfl, rfl⟩
  | cons c cs ih =>
      obtain ⟨hrec, hrecs⟩ := List.forall_mem_cons.1 hrec
      obtain ⟨hc, hcs⟩ := List.forall_mem_cons.1 hcs
      obtain ⟨hsend, hsends⟩ := List.forall_mem_cons.1 hsend
      obtain ⟨hl, hls⟩ := List.forall_mem_cons.1 hl
      rw [encodeAll, List.append_assoc] at h
      obtain ⟨d', hread, hview⟩ := hrec prototype.kind s _ hproto hl hs hsend h
      obtain ⟨hs', h'⟩ := hs.advance hc.length_encode h
      obtain ⟨new, hreads, hviews⟩ := ih hrecs hcs hls hs' hsends h' (n + c.kind.size)
        (prototype.withKind d' :: done)
      rw [BitStream.advance_advance, List.reverse_cons, List.append_assoc, Nat.add_assoc] at hreads
      have hcopy : readCopy prototype s =
          (.ok c.kind.size, prototype.withKind d', s.advance c.kind.size) := by
        rw [readCopy, hread]
      refine ⟨prototype.withKind d' :: new, ?_, ?_⟩
      · rw [List.length_cons, ArrayOf.readCopies, hcopy]
        exact hreads
      · rw [viewAll, viewAll, hviews, ← hview]
        rfl

/-- A component is read back if every node that is written is regular. -/
theorem recovers {c : Kind} (hc : c.WellFormed) (hreg : c.EmitsOnly Regular) : c.Recovers := by
  induction hc with
  | @scalar v hv =>
      intro d s rest hd hl hs hsend h
      obtain ⟨u, rfl, hu⟩ := eq_scalar_of_layout_eq hl
      cases hd with
      | scalar hwf =>
          obtain ⟨u', hread, hforget⟩ := Scalar.read_of_unread hs hwf hv hu
            (emitsOnly_scalar.1 hreg) (emitsOnly_scalar.1 hsend) h
          refine ⟨.scalar u', read_scalar_eq_ok_iff.2 ⟨u', hread, rfl⟩, ?_⟩
          rw [view, view, hforget]
  | @array a hcons hproto hwf _ ih =>
      intro d s rest hd hl hs hsend h
      obtain ⟨b, rfl, hmin, hmax, hlproto⟩ := eq_array_of_layout_eq hl
      obtain ⟨huniform, hregs⟩ := emitsOnly_array.1 hreg
      obtain ⟨hadm, hsends⟩ := emitsOnly_array.1 hsend
      cases hd with
      | array hconsb hprotob _ =>
          rw [encode, ← hcons.width_eq, List.append_assoc] at h
          -- the reader has the same bounds, so it takes as many bits for the number of elements
          have hcount := ArrayOf.readCount_of_unread hs hcons hconsb hmin hmax hadm h
          obtain ⟨hs', h'⟩ := hs.advance (Bits.length_ofNat ..) h
          have hrecs : ∀ c ∈ a.elements, c.kind.Recovers := by
            intro c hc
            exact ih c hc (hregs c hc)
          -- the elements are read into copies of the reader's prototype, which has their layout
          have hlayouts : ∀ c ∈ a.elements, b.prototype.kind.layout = c.kind.layout := by
            intro c hc
            exact hlproto.trans (huniform c hc).symm
          obtain ⟨new, hreads, hviews⟩ :=
            readCopies_of_unread hrecs hwf hprotob hlayouts hs' hsends h' b.countField.width []
          have hadmb : b.admits a.len = true := by
            obtain ⟨hle, hle'⟩ := ArrayOf.admits_iff.1 hadm
            exact ArrayOf.admits_iff.2 ⟨by rwa [hmin], by rwa [hmax]⟩
          have hwidth : b.countField.width = a.countField.width := by
            rw [hcons.width_eq, hconsb.width_eq, hmin, hmax]
          rw [BitStream.advance_advance, hwidth] at hreads
          refine ⟨.array (b.withElements new), ?_, ?_⟩
          · rw [size, ← hcons.countField_wellFormed.width_eq]
            refine read_array_eq_ok_iff.2 ⟨a.len, _, new, hcount, hadmb, ?_, rfl⟩
            rw [hwidth]
            exact hreads
          · rw [view, view, ← hviews]
            rfl
  | @group g hcons hreq hopt ihreq ihopt =>
      intro d s rest hd hl hs hsend h
      obtain ⟨f, rfl, hlreq, hlopt⟩ := eq_group_of_layout_eq hl
      obtain ⟨-, hregs, hregs'⟩ := emitsOnly_group.1 hreg
      obtain ⟨-, hsends, hsends'⟩ := emitsOnly_group.1 hsend
      cases hd with
      | group hconsf hreqf hoptf =>
          rw [encode_group, List.append_assoc, List.append_assoc] at h
          have hrecs : ∀ c ∈ g.required, c.kind.Recovers := by
            intro c hc
            exact ihreq c hc (hregs c hc)
          have hrecs' : ∀ c ∈ marked g.indicator.toList g.optional, c.kind.Recovers := by
            intro c hc
            exact ihopt c (mem_of_mem_marked hc) (hregs' c hc)
          obtain ⟨required, hreads, hviews⟩ :=
            readAll_of_unread hrecs hreq hreqf hlreq hs hsends h
          obtain ⟨hs₁, h₁⟩ := hs.advance
            (length_encodeAll fun c hc => (hreq c hc).length_encode) h
          have hlen : f.indicator.len = g.indicator.len := by
            have hlayouts := congrArg List.length hlopt
            rw [layoutAll_eq, layoutAll_eq, List.length_map, List.length_map] at hlayouts
            rw [hconsf.len_indicator, hcons.len_indicator, hlayouts]
          have hmarks := BitSet.read_of_unread hs₁ hconsf.indicator_wellFormed
            hcons.indicator_wellFormed hlen h₁
          obtain ⟨hs₂, h₂⟩ := hs₁.advance
            ((length_flagBits _).trans g.indicator.length_toList) h₁
          -- from here on the reader has the marks of the writer
          obtain ⟨optional, hreads', hviews'⟩ :=
            readPresent_of_unread hrecs' hopt hoptf hlopt hs₂ hsends' h₂
          rw [BitStream.advance_advance] at hmarks
          rw [BitStream.advance_advance, BitStream.advance_advance] at hreads'
          refine ⟨.group { f with
            required, indicator := g.indicator, optional, cachedSize := none }, ?_, ?_⟩
          · rw [size_group]
            exact read_group_eq_ok_iff.2
              ⟨_, required, _, _, g.indicator, _, _, optional, hreads, hmarks, hreads', rfl, rfl⟩
          · rw [view, view, viewPresent_eq, viewPresent_eq, hviews, hviews']

/-! ### Runs of components -/

/-- Appends components one after the other and tells how many bits each took. -/
def writeEach : List Kind → BitStream → Outcome BitStream (List Nat)
  | [], s => (.ok [], s)
  | c :: cs, s =>
    match c.write s with
    | (.error e, s) => (.error e, s)
    | (.ok n, s) =>
      match writeEach cs s with
      | (.error e, s) => (.error e, s)
      | (.ok ns, s) => (.ok (n :: ns), s)

/-- Takes components one after the other and tells how many bits each took. -/
def readEach : List Kind → BitStream → Outcome (List Kind × BitStream) (List Nat)
  | [], s => (.ok [], [], s)
  | d :: ds, s =>
    match d.read s with
    | (.error e, d, s) => (.error e, d :: ds, s)
    | (.ok n, d, s) =>
      match readEach ds s with
      | (.error e, ds, s) => (.error e, d :: ds, s)
      | (.ok ns, ds, s) => (.ok (n :: ns), d :: ds, s)

variable {s' : BitStream} {ns : List Nat}

theorem writeEach_cons_eq_ok_iff {c : Kind} {cs : List Kind} :
    writeEach (c :: cs) s = (.ok ns, s') ↔
      ∃ n s₁ ns', c.write s = (.ok n, s₁) ∧ writeEach cs s₁ = (.ok ns', s') ∧ ns = n :: ns' := by
  grind [writeEach]

theorem readEach_cons_eq_ok_iff {d : Kind} {ds ds' : List Kind} :
    readEach (d :: ds) s = (.ok ns, ds', s') ↔
      ∃ n d₁ s₁ ns' ds₁, d.read s = (.ok n, d₁, s₁) ∧ readEach ds s₁ = (.ok ns', ds₁, s') ∧
        ns = n :: ns' ∧ ds' = d₁ :: ds₁ := by
  grind [readEach]

theorem appends_of_writeEach {cs : List Kind} (hcs : ∀ c ∈ cs, c.WellFormed) (hs : s.WellFormed)
    (h : writeEach cs s = (.ok ns, s')) :
    ns = cs.map size ∧ BitStream.Appends s (cs.flatMap encode) s' ∧
      ∀ c ∈ cs, c.EmitsOnly (Sendable s.maxTextBytes) := by
  induction cs generalizing s ns with
  | nil =>
      cases h
      exact ⟨rfl, .refl hs, List.forall_mem_nil _⟩
  | cons c cs ih =>
      obtain ⟨hc, hcs⟩ := List.forall_mem_cons.1 hcs
      obtain ⟨n, s₁, ns', h₁, h₂, rfl⟩ := writeEach_cons_eq_ok_iff.1 h
      obtain ⟨rfl, happ, hemit⟩ := appends_of_write hc hs h₁
      obtain ⟨rfl, happ', hemits⟩ := ih hcs happ.wellFormed h₂
      rw [happ.maxTextBytes_eq] at hemits
      exact ⟨rfl, happ.trans happ', List.forall_mem_cons.2 ⟨hemit, hemits⟩⟩

theorem readEach_of_unread {cs ds : List Kind} (hcs : ∀ c ∈ cs, c.WellFormed ∧ c.Recovers)
    (hds : List.Forall₂ (fun c d => d.WellFormed ∧ d.layout = c.layout) cs ds)
    (hs : s.WellFormed) (hsend : ∀ c ∈ cs, c.EmitsOnly (Sendable s.maxTextBytes))
    (h : s.unread = cs.flatMap encode ++ rest) :
    ∃ ds', readEach ds s = (.ok (cs.map size), ds', s.advance (cs.map size).sum) ∧
      List.Forall₂ (fun c d' => d'.view = c.view) cs ds' ∧ List.Forall₂ Keeps ds ds' := by
  induction hds generalizing s with
  | nil => exact ⟨[], rfl, .nil, .nil⟩
  | @cons c d cs ds hd _ ih =>
      obtain ⟨hc, hcs⟩ := List.forall_mem_cons.1 hcs
      obtain ⟨hsend, hsends⟩ := List.forall_mem_cons.1 hsend
      rw [List.flatMap_cons, List.append_assoc] at h
      obtain ⟨d', hread, hview⟩ := hc.2 d s _ hd.1 hd.2 hs hsend h
      obtain ⟨hs', h'⟩ := hs.advance hc.1.length_encode h
      obtain ⟨ds', hreads, hviews, hkeeps⟩ := ih hcs hs' hsends h'
      rw [BitStream.advance_advance] at hreads
      refine ⟨d' :: ds', readEach_cons_eq_ok_iff.2 ⟨_, d', _, _, ds', hread, hreads, rfl, rfl⟩,
        .cons hview hviews, .cons (keeps_of_read hread) hkeeps⟩

end Kind

/-- **Round trip.**  Regular components are written one after the other to a stream that has been
read to its end; whatever is written behind them, reading as many components of the same layouts
takes the same numbers of bits, gives the same views, and keeps everything that is not seen. -/
theorem readEach_writeEach {cs ds : List Kind} {s s' t : BitStream} {ns : List Nat}
    {rest : List Bool} (hcs : ∀ c ∈ cs, c.Reachable ∧ c.EmitsOnly Kind.Regular)
    (hds : List.Forall₂ (fun c d => d.Reachable ∧ d.layout = c.layout) cs ds)
    (hs : s.Reachable) (hpos : s.readPos = s.writePos)
    (hwrite : Kind.writeEach cs s = (.ok ns, s')) (ht : t.Reachable)
    (hbits : t.bits = s'.bits ++ rest) (hread : t.readPos = s'.readPos)
    (hlimit : s'.maxTextBytes ≤ t.maxTextBytes) :
    ∃ ds' t', Kind.readEach ds t = (.ok ns, ds', t') ∧ t'.readPos = t.readPos + ns.sum ∧
      List.Forall₂ (fun c d' => d'.view = c.view) cs ds' ∧ List.Forall₂ Kind.Keeps ds ds' := by
  obtain ⟨rfl, happ, hemits⟩ :=
    Kind.appends_of_writeEach (fun c hc => (hcs c hc).1.wellFormed) hs.wellFormed hwrite
  -- the reader stands where the writer began, so what was appended comes first
  have hunread : t.unread = cs.flatMap Kind.encode ++ rest := by
    have hlen := hs.wellFormed.length_bits
    rw [BitStream.unread, hbits, happ.bits_eq, hread, happ.readPos_eq, hpos, ← hlen,
      List.append_assoc, List.drop_left]
  rw [happ.maxTextBytes_eq] at hlimit
  have hrecs : ∀ c ∈ cs, c.WellFormed ∧ c.Recovers := by
    intro c hc
    obtain ⟨hreach, hreg⟩ := hcs c hc
    exact ⟨hreach.wellFormed, Kind.recovers hreach.wellFormed hreg⟩
  have hsends : ∀ c ∈ cs, c.EmitsOnly (Kind.Sendable t.maxTextBytes) := by
    intro c hc
    exact (hemits c hc).imp fun node hnode => hnode.mono hlimit
  obtain ⟨ds', hreads, hviews, hkeeps⟩ := Kind.readEach_of_unread hrecs
    (hds.imp fun c d hd => ⟨hd.1.wellFormed, hd.2⟩) ht.wellFormed hsends hunread
  exact ⟨ds', _, hreads, rfl, hviews, hkeeps⟩

/-- A group whose first optional field is present is written twice, behind three bits that have
been read, and a bit is written behind it; a group whose second optional field is present reads it
back. -/
theorem readEach_writeEach_marks : ∃ (c d : Kind) (s s' t : BitStream),
    s.Reachable ∧ s.writePos = 3 ∧ Kind.writeEach [c, c] s = (.ok [18, 18], s') ∧
    t.bits = s'.bits ++ [true] ∧
    ∃ ds' t', Kind.readEach [d, d] t = (.ok [18, 18], ds', t') ∧ t'.readPos = t.readPos + 36 ∧
      List.Forall₂ (fun c d' => d'.view = c.view) [c, c] ds' ∧
      List.Forall₂ Kind.Keeps [d, d] ds' := by
  have hbyte (n : UInt8) : (Kind.scalar (.u8 n)).Reachable := .free trivial
  have htext (text : String) : (Kind.scalar (.text text)).Reachable := .free trivial
  have hrequired (x : UInt8) := Kind.Reachable.addField .empty (hbyte x)
    (show GroupOf.addField _ ⟨none, _⟩ false = _ from rfl)
  have hhealth (x y : UInt8) := Kind.Reachable.addField (hrequired x) (hbyte y)
    (show GroupOf.addField _ ⟨some "health", _⟩ true = _ from rfl)
  have hgroup (x y : UInt8) (text : String) := Kind.Reachable.addField (hhealth x y) (htext text)
    (show GroupOf.addField _ ⟨some "name", _⟩ true = _ from rfl)
  have hc : (Kind.group ⟨[⟨none, .scalar (.u8 5)⟩],
      [⟨some "health", .scalar (.u8 7)⟩, ⟨some "name", .scalar (.text "")⟩], ⟨#[1], 2⟩,
      [("health", .optional 0), ("name", .optional 1)], none⟩).Reachable :=
    .setPresent (hgroup 5 7 "") (show GroupOf.setPresent _ "health" true = _ from rfl)
  have hd : (Kind.group ⟨[⟨none, .scalar (.u8 9)⟩],
      [⟨some "health", .scalar (.u8 1)⟩, ⟨some "name", .scalar (.text "kept")⟩], ⟨#[2], 2⟩,
      [("health", .optional 0), ("name", .optional 1)], none⟩).Reachable :=
    .setPresent (hgroup 9 1 "kept") (show GroupOf.setPresent _ "name" true = _ from rfl)
  have hs : (BitStream.perform (BitStream.perform (BitStream.Origin.limits {}).stream
      (.write 5 3)).2 (.read 3)).2.Reachable := .perform _ (.perform _ (.origin _))
  have hs' {c : Kind} (_ : c.Reachable) := (hs.write c).write c
  have hreg : Kind.EmitsOnly Kind.Regular (.group ⟨[⟨none, .scalar (.u8 5)⟩],
      [⟨some "health", .scalar (.u8 7)⟩, ⟨some "name", .scalar (.text "")⟩], ⟨#[1], 2⟩,
      [("health", .optional 0), ("name", .optional 1)], none⟩) := by
    refine Kind.emitsOnly_group.2 ⟨trivial, ?_, ?_⟩
    · intro x hx
      obtain rfl := List.mem_singleton.1 hx
      exact Kind.emitsOnly_scalar.2 trivial
    · intro x (hx : x ∈ [(⟨some "health", .scalar (.u8 7)⟩ : Component)])
      obtain rfl := List.mem_singleton.1 hx
      exact Kind.emitsOnly_scalar.2 trivial
  have happ := (BitStream.appends_of_writeBits (hs' hc).wellFormed
    (show BitStream.writeBits _ 1 1 = (.ok (), _) from rfl)).1
  have hcs {c : Kind} (hc : c.Reachable) (hreg : c.EmitsOnly Kind.Regular) :
      ∀ c' ∈ [c, c], c'.Reachable ∧ c'.EmitsOnly Kind.Regular := by
    intro c' hc'
    obtain rfl : c' = c := by simpa using hc'
    exact ⟨hc, hreg⟩
  have h := readEach_writeEach (hcs hc hreg) (.cons ⟨hd, rfl⟩ (.cons ⟨hd, rfl⟩ .nil)) hs rfl
    (show Kind.writeEach _ _ = (.ok [18, 18], _) from rfl) ((hs' hc).perform (.write 1 1))
    happ.bits_eq rfl (Nat.le_refl _)
  refine ⟨_, _, _, _, _, hs, ?_, ?_, happ.bits_eq, h⟩ <;> rfl

end WireTree
