/-
**Datagrams.**

A datagram is nothing but the bytes of a stream, so what the stream knows besides is lost: how many
bits there are, and the limits that it had.  The receiver starts from the bytes alone, with all of
them to be read and with the default limits.  Behind the bits that were written there are fewer than
eight others, which are zero, and the receiver has to find the end by itself.

It does.  What was written is read back by whoever has the layout, unless a text is longer than the
receiver admits: the writer may have had another limit.  Then the read fails at the first such text,
since everything before it is read back, and it fails in the one way in which a text is too long.

Main definitions:

* `WireTree.BitStream.overlong` — how the read of a text that is too long fails;
* `WireTree.Kind.Rejects` — a component with a text that is too long is refused by all of its
  layout;
* `WireTree.Delivered` — how a datagram is received.

Main results:

* `WireTree.BitStream.WellFormed.unread_ofBytes` — the bits of the bytes of a stream;
* `WireTree.BitStream.readText_of_overlong` — a text that is too long;
* `WireTree.Kind.rejects` — a component is refused for the first text that is too long;
* `WireTree.datagram_delivered` — **datagrams are delivered**.
-/

import WireTree.Proofs.BitStream.Texts
import WireTree.Proofs.Component.Faults
import WireTree.Proofs.Component.FieldLists
import WireTree.Proofs.Component.InTurn
import WireTree.Proofs.Component.RoundTrip

set_option relaxedAutoImplicit false
set_option autoImplicit false

namespace WireTree

/-! ### The bytes of a stream -/

namespace BitStream

variable {s : BitStream} {rest : List Bool}

/-- In the bytes of a stream there are its bits, and behind them fewer than eight others, which are
zero. -/
theorem WellFormed.unread_ofBytes (hs : s.WellFormed) : ∃ fill : List Bool,
    (BitStream.ofBytes s.data).unread = s.bits ++ fill ∧ fill.length < 8 ∧
      ∀ bit ∈ fill, bit = false := by
  have hsize := hs.size_data
  have hall : (BitStream.ofBytes s.data).unread = Bits.window s.data 0 (8 * s.data.size) :=
    (WellFormed.ofBytes s.data).bits_eq
  refine ⟨Bits.window s.data s.writePos (8 * s.data.size - s.writePos), ?_, ?_, ?_⟩
  · have happend := Bits.window_append s.data 0 s.writePos (8 * s.data.size - s.writePos)
    rw [Nat.zero_add, Nat.add_sub_of_le (by omega)] at happend
    rw [hall, hs.bits_eq, happend]
  · rw [Bits.length_window]
    omega
  · intro bit hbit
    rw [Bits.window, List.mem_map] at hbit
    obtain ⟨j, hj, rfl⟩ := hbit
    exact hs.unwritten j (List.mem_range'_1.1 hj).1

/-! ### Texts that are too long -/

/-- The failure of a read at a text that is too long: it is found out at the first byte for which
there is no room. -/
def overlong (s : BitStream) : WireError := .textTooLong (s.maxTextBytes + 1) s.maxTextBytes

/-- A text is refused if it is too long, no matter that it was written. -/
theorem readText_of_overlong (hs : s.WellFormed) {text : String}
    (hzero : (0 : UInt8) ∉ text.toUTF8.data) (hlong : s.maxTextBytes < text.utf8ByteSize)
    (h : s.unread = textBits text ++ rest) : s.readText.1 = .error s.overlong := by
  have hsize : text.toUTF8.data.toList.length = text.utf8ByteSize := rfl
  rw [textBits, List.append_assoc] at h
  have hnone : 0 ∉ text.toUTF8.data.toList.take (s.maxTextBytes + 1) := by
    intro hmem
    exact hzero (Array.mem_toList_iff.1 (List.mem_of_mem_take hmem))
  rw [readText, BitSource.readText, BitSource.maxTextBytes_stream,
    readTerminated_of_overlong hs h hnone (by rwa [hsize])]
  rfl

end BitStream

/-! ### Components with a text that is too long -/

theorem marked_map {α β : Type} (f : α → β) (marks : List Bool) (cs : List α) :
    marked marks (cs.map f) = (marked marks cs).map f := by
  induction cs generalizing marks with
  | nil => rfl
  | cons c cs ih =>
      rcases marks with _ | ⟨_ | _, marks⟩
      · simp
      · exact ih marks
      · exact congrArg (f c :: ·) (ih marks)

namespace Kind

/-- Every component of the layout of `c` refuses `c` if the stream would not take it. -/
def Rejects (c : Kind) : Prop :=
  ∀ (d : Kind) (s : BitStream) (rest : List Bool), d.WellFormed → d.layout = c.layout →
    s.WellFormed → ¬ c.EmitsOnly (Sendable s.maxTextBytes) → s.unread = c.encode ++ rest →
    (d.read s).1 = .error s.overlong

variable {s : BitStream} {rest : List Bool}

theorem layoutAll_marked {cs ds : List Component} (h : layoutAll ds = layoutAll cs)
    (marks : List Bool) : layoutAll (marked marks ds) = layoutAll (marked marks cs) := by
  rw [layoutAll_eq, layoutAll_eq] at h ⊢
  rw [← marked_map, ← marked_map, h]

/-- Of a list of components the first that is refused decides; those before it are read back. -/
theorem readAll_rejects {cs ds : List Component}
    (hcs : ∀ c ∈ cs, c.kind.WellFormed ∧ c.kind.Recovers ∧ c.kind.Rejects)
    (hds : ∀ d ∈ ds, d.kind.WellFormed) (hl : layoutAll ds = layoutAll cs) (hs : s.WellFormed)
    (hsend : ¬ ∀ c ∈ cs, c.kind.EmitsOnly (Sendable s.maxTextBytes))
    (h : s.unread = encodeAll cs ++ rest) : (readAll ds s).1 = .error s.overlong := by
  induction cs generalizing ds s with
  | nil => exact absurd (List.forall_mem_nil _) hsend
  | cons c cs ih =>
      cases ds with
      | nil => cases hl
      | cons d ds =>
          obtain ⟨⟨hc, hrec, hrej⟩, hcs⟩ := List.forall_mem_cons.1 hcs
          obtain ⟨hd, hds⟩ := List.forall_mem_cons.1 hds
          obtain ⟨hl, hls⟩ := List.cons.inj hl
          rw [encodeAll, List.append_assoc] at h
          rw [readAll]
          by_cases hfirst : c.kind.EmitsOnly (Sendable s.maxTextBytes)
          · obtain ⟨d', hread, -⟩ := hrec d.kind s _ hd hl hs hfirst h
            obtain ⟨hs', h'⟩ := hs.advance hc.length_encode h
            have hrest := ih hcs hds hls hs'
              (fun hall => hsend (List.forall_mem_cons.2 ⟨hfirst, hall⟩)) h'
            rw [hread]
            rcases hr : readAll ds (s.advance c.kind.size) with ⟨e | m, ds', s'⟩ <;>
              rw [hr] at hrest <;> cases hrest
            simp only [hr]
            rfl
          · have hread := hrej d.kind s _ hd hl hs hfirst h
            rcases hr : d.kind.read s with ⟨e | m, kind, s'⟩ <;> rw [hr] at hread <;> cases hread
            rfl

/-- A text is refused if it is too long. -/
theorem rejects_scalar {v : Scalar} {limit : Nat} (hsend : Sendable limit (.scalar v)) :
    Rejects (.scalar v) := by
  intro d s rest hd hl hs hbad h
  rw [emitsOnly_scalar] at hbad
  by_cases htext : v.variant = .text
  · obtain ⟨t, rfl⟩ := Scalar.eq_text_of_variant htext
    obtain ⟨u, rfl, hu⟩ := eq_scalar_of_layout_eq hl
    have hlong : s.maxTextBytes < t.utf8ByteSize := by
      refine Nat.lt_of_not_le ?_
      intro hle
      exact hbad ⟨hle, hsend.2⟩
    have hread := BitStream.readText_of_overlong hs hsend.2 hlong h
    cases u with
    | text t' =>
        rcases hr : s.readText with ⟨e | t'', s'⟩ <;> rw [hr] at hread <;> cases hread
        simp only [read, Scalar.read, BitSource.readText_stream, hr]
    | _ => simp [Scalar.layout, Scalar.variant] at hu
  · refine absurd ?_ hbad
    cases v with
    | text t => exact absurd rfl htext
    | _ => trivial

/-- The number of elements is read back, and then the first element that is refused decides. -/
theorem rejects_array {a : ArrayField} (hcons : a.Consistent) (hadm : a.admits a.len = true)
    (huniform : ∀ c ∈ a.elements, c.kind.layout = a.prototype.kind.layout)
    (helements : ∀ c ∈ a.elements, c.kind.WellFormed ∧ c.kind.Recovers ∧ c.kind.Rejects) :
    Rejects (.array a) := by
  intro d s rest hd hl hs hbad h
  obtain ⟨b, rfl, hmin, hmax, hlproto⟩ := eq_array_of_layout_eq hl
  cases hd with
  | array hconsb hprotob _ =>
      rw [encode, ← hcons.width_eq, List.append_assoc] at h
      have hcount := ArrayOf.readCount_of_unread hs hcons hconsb hmin hmax hadm h
      obtain ⟨hs', h'⟩ := hs.advance (Bits.length_ofNat ..) h
      have hadmb : b.admits a.len = true := by
        obtain ⟨hle, hle'⟩ := ArrayOf.admits_iff.1 hadm
        exact ArrayOf.admits_iff.2 ⟨by rwa [hmin], by rwa [hmax]⟩
      -- the copies of the prototype are read as a list of the layout of the elements
      have hcopies : ∀ d ∈ List.replicate a.len b.prototype, d.kind.WellFormed := by
        intro d hd
        rwa [List.eq_of_mem_replicate hd]
      have hlayouts : layoutAll (List.replicate a.len b.prototype) = layoutAll a.elements := by
        rw [layoutAll_eq, layoutAll_eq, List.map_replicate, ArrayOf.len]
        refine (List.eq_replicate_iff.2 ⟨List.length_map .., ?_⟩).symm
        intro l hl
        obtain ⟨c, hc, rfl⟩ := List.mem_map.1 hl
        exact (huniform c hc).trans hlproto.symm
      have hread := readAll_rejects helements hcopies hlayouts hs'
        (fun hall => hbad (emitsOnly_array.2 ⟨hadm, hall⟩)) h'
      rw [read_array, hcount]
      simp only [if_pos hadmb, ArrayOf.readCopies_eq]
      rcases hr : readAll (List.replicate a.len b.prototype)
        (s.advance a.countField.width) with ⟨e | m, cs, s'⟩ <;> rw [hr] at hread <;>
        cases hread
      rfl

/-- If all required fields are read back, so are the marks, and a field that is marked is to
blame. -/
theorem rejects_group {g : Group} (hcons : g.Consistent)
    (hrequired : ∀ c ∈ g.required, c.kind.WellFormed ∧ c.kind.Recovers ∧ c.kind.Rejects)
    (hoptional : ∀ c ∈ g.optional, c.kind.WellFormed)
    (hpresent : ∀ c ∈ g.present, c.kind.Recovers ∧ c.kind.Rejects) : Rejects (.group g) := by
  intro d s rest hd hl hs hbad h
  obtain ⟨f, rfl, hlreq, hlopt⟩ := eq_group_of_layout_eq hl
  cases hd with
  | group hconsf hreqf hoptf =>
      rw [encode_group, List.append_assoc, List.append_assoc] at h
      rw [read]
      simp only [GroupOf.forget]
      by_cases hall : ∀ c ∈ g.required, c.kind.EmitsOnly (Sendable s.maxTextBytes)
      · have hreq : ∀ c ∈ g.required, c.kind.WellFormed := fun c hc => (hrequired c hc).1
        obtain ⟨required, hreads, -⟩ :=
          readAll_of_unread (fun c hc => (hrequired c hc).2.1) hreq hreqf hlreq hs hall h
        obtain ⟨hs₁, h₁⟩ := hs.advance
          (length_encodeAll fun c hc => (hreq c hc).length_encode) h
        have hlen : f.indicator.len = g.indicator.len := by
          have hlayouts := congrArg List.length hlopt
          rw [layoutAll_eq, layoutAll_eq, List.length_map, List.length_map] at hlayouts
          rw [hconsf.len_indicator, hcons.len_indicator, hlayouts]
        have hmarks := BitSet.read_of_unread hs₁ hconsf.indicator_wellFormed
          hcons.indicator_wellFormed hlen h₁
        obtain ⟨hs₂, h₂⟩ := hs₁.advance
          ((length_flagBits _).trans g.indicator.length_toList) h₁
        have hmarked : ∀ c ∈ g.present, c.kind.WellFormed ∧ c.kind.Recovers ∧ c.kind.Rejects :=
          fun c hc => ⟨hoptional c (GroupOf.mem_optional_of_mem_present hc), hpresent c hc⟩
        have hread := readAll_rejects hmarked (fun d hd => hoptf d (mem_of_mem_marked hd))
          (layoutAll_marked hlopt g.indicator.toList) hs₂
          (fun hall' => hbad (emitsOnly_group.2 ⟨trivial, hall, hall'⟩)) h₂
        rw [← (readPresent_eq _ _ _).1] at hread
        simp only [hreads, hmarks]
        rcases hr : readPresent g.indicator.toList f.optional
          ((s.advance (sizeAll g.required)).advance g.indicator.len) with ⟨e | m, cs, s'⟩ <;>
          rw [hr] at hread <;> cases hread
        rfl
      · have hread := readAll_rejects hrequired hreqf hlreq hs hall h
        rcases hr : readAll f.required s with ⟨e | m, cs, s'⟩ <;> rw [hr] at hread <;>
          cases hread
        rfl

/-- A component that some stream has taken is refused for the first text that is too long. -/
theorem rejects {c : Kind} {limit : Nat} (hc : c.WellFormed) (hreg : c.EmitsOnly Regular)
    (hsend : c.EmitsOnly (Sendable limit)) : c.Rejects := by
  induction hc with
  | scalar _ => exact rejects_scalar (emitsOnly_scalar.1 hsend)
  | array hcons _ hwf _ ih =>
      obtain ⟨huniform, hregs⟩ := emitsOnly_array.1 hreg
      obtain ⟨hadm, hsends⟩ := emitsOnly_array.1 hsend
      refine rejects_array hcons hadm huniform ?_
      intro c hc
      exact ⟨hwf c hc, recovers (hwf c hc) (hregs c hc), ih c hc (hregs c hc) (hsends c hc)⟩
  | group hcons hreq hopt ihreq ihopt =>
      obtain ⟨-, hregs, hregs'⟩ := emitsOnly_group.1 hreg
      obtain ⟨-, hsends, hsends'⟩ := emitsOnly_group.1 hsend
      refine rejects_group hcons ?_ hopt ?_
      · intro c hc
        exact ⟨hreq c hc, recovers (hreq c hc) (hregs c hc), ihreq c hc (hregs c hc) (hsends c hc)⟩
      · intro c hc
        have hmem := GroupOf.mem_optional_of_mem_present hc
        exact ⟨recovers (hopt c hmem) (hregs' c hc), ihopt c hmem (hregs' c hc) (hsends' c hc)⟩

end Kind

/-! ### Delivery -/

/-- The fields of a message are read as a group. -/
theorem Message.exists_read (m : Message) (s : BitStream) : ∃ g', (Kind.group m.payload).read s =
      ((m.read s).1, .group g', (m.read s).2.2) ∧ (m.read s).2.1.payload = g' := by
  rcases hr : (Kind.group m.payload).read s with ⟨r, k, s'⟩
  have hvariant := Kind.variant_read (.group m.payload) s
  rw [hr] at hvariant
  cases k with
  | scalar v => cases v <;> cases hvariant
  | array a => cases hvariant
  | group g' =>
      have hread := Edit.read_eq (v := .group) hr
      refine ⟨g', ?_, ?_⟩ <;> simp only [Message.read, Message.edit, hread]

/-- How a datagram with the component `c` of a given size is received: the read goes through exactly
if no text that was sent has more than 1024 bytes.  Then it takes as many bits as the size, what is
received agrees with `c` on everything that was sent, and fewer than eight bits are left, which are
zero.  Otherwise it fails for a text of 1025 bytes. -/
structure Delivered (c : Kind) (size : Nat) (r : Outcome (Kind × BitStream) Nat) : Prop where
  /-- When the read goes through. -/
  ok_iff : (∃ n, r.1 = .ok n) ↔ ∀ t, c.Emits (.scalar (.text t)) → t.utf8ByteSize ≤ 1024
  /-- What it leaves then. -/
  of_ok : ∀ n, r.1 = .ok n → n = size ∧ r.2.2.readPos = size ∧ r.2.1.view = c.view ∧
    r.2.2.unread.length < 8 ∧ ∀ bit ∈ r.2.2.unread, bit = false
  /-- How it fails otherwise. -/
  of_error : ∀ e, r.1 = .error e → e = .textTooLong 1025 1024

/-- A component that has been written to a new stream is delivered. -/
theorem Kind.delivered {l : Limits} {c d : Kind} {s : BitStream} {n : Nat} (hc : c.WellFormed)
    (hreg : c.EmitsOnly Regular) (hwrite : c.write (.ofLimits l) = (.ok n, s)) (hd : d.WellFormed)
    (hl : d.layout = c.layout) : Delivered c c.measure.1 (d.read (.ofBytes s.data)) := by
  obtain ⟨rfl, happ, hsend⟩ := appends_of_write hc (.ofLimits l) hwrite
  obtain ⟨fill, hunread, hlen, hfill⟩ := happ.wellFormed.unread_ofBytes
  have hbits : s.bits = c.encode := happ.bits_eq
  have hwf := BitStream.WellFormed.ofBytes s.data
  rw [hbits] at hunread
  have htexts : (∀ t, c.Emits (.scalar (.text t)) → t.utf8ByteSize ≤ 1024) ↔
      c.EmitsOnly (Sendable (BitStream.ofBytes s.data).maxTextBytes) := by
    rw [emitsOnly_sendable_iff hc] at hsend ⊢
    constructor
    · intro h
      exact ⟨fun t ht => ⟨(hsend.1 t ht).1, h t ht⟩, hsend.2⟩
    · intro h t ht
      exact (h.1 t ht).2
  by_cases hshort : c.EmitsOnly (Sendable (BitStream.ofBytes s.data).maxTextBytes)
  · obtain ⟨d', hread, hview⟩ := recovers hc hreg d _ fill hd hl hwf hshort hunread
    obtain ⟨-, hrest⟩ := hwf.advance hc.length_encode hunread
    rw [hread]
    refine ⟨⟨fun _ => htexts.2 hshort, fun _ => ⟨_, rfl⟩⟩, ?_, ?_⟩
    · rintro m ⟨⟩
      rw [hc.measure_fst]
      refine ⟨rfl, Nat.zero_add _, hview, ?_, ?_⟩
      · rw [hrest]
        exact hlen
      · rw [hrest]
        exact hfill
    · rintro e ⟨⟩
  · have herror := rejects hc hreg hsend d _ fill hd hl hwf hshort hunread
    refine ⟨⟨?_, fun h => absurd (htexts.1 h) hshort⟩, ?_, ?_⟩
    · rintro ⟨m, hm⟩
      cases hm.symm.trans herror
    · intro m hm
      cases hm.symm.trans herror
    · intro e he
      exact Except.error.inj (he.symm.trans herror)

/-- **Datagrams are delivered.**  A component or a message has been written to a new stream, under
whatever limits, and the receiver starts from the bytes of the stream with anything of the same
layout: then it is delivered, if its integers that were sent are within their bounds and the
elements of its arrays that were sent have the layout of the prototype. -/
theorem datagram_delivered {l : Limits} {s : BitStream} {n : Nat} :
    (∀ c d : Kind, c.Reachable → d.Reachable → d.layout = c.layout → c.EmitsOnly Kind.Regular →
      c.write (.ofLimits l) = (.ok n, s) →
      Delivered c c.measure.1 (d.read (.ofBytes s.data))) ∧
    ∀ c d : Message, c.Reachable → d.Reachable →
      (Kind.group d.payload).layout = (Kind.group c.payload).layout →
      (Kind.group c.payload).EmitsOnly Kind.Regular → c.write (.ofLimits l) = (.ok n, s) →
      Delivered (.group c.payload) c.measure.1 ((d.read (.ofBytes s.data)).1,
        .group (d.read (.ofBytes s.data)).2.1.payload, (d.read (.ofBytes s.data)).2.2) := by
  refine ⟨?_, ?_⟩
  · intro c d hc hd hl hreg hwrite
    exact Kind.delivered hc.wellFormed hreg hwrite hd.wellFormed hl
  · intro c d hc hd hl hreg hwrite
    obtain ⟨g', hread, rfl⟩ := d.exists_read (.ofBytes s.data)
    rw [← hread, c.measure_fst]
    exact Kind.delivered (Kind.Reachable.wellFormed hc) hreg hwrite (Kind.Reachable.wellFormed hd)
      hl

/-- A message of 25 bits is delivered into a new one, and seven bits are left; a text of 1025 bytes
that was written under another limit is refused. -/
theorem datagram_delivered_overlong : ∃ (c d : Message) (k : Kind) (s t : BitStream),
    c.write (.ofLimits {}) = (.ok 25, s) ∧
    Delivered (.group c.payload) c.measure.1 ((d.read (.ofBytes s.data)).1,
      .group (d.read (.ofBytes s.data)).2.1.payload, (d.read (.ofBytes s.data)).2.2) ∧
    (d.read (.ofBytes s.data)).1 = .ok 25 ∧ (d.read (.ofBytes s.data)).2.2.remaining = 7 ∧
    k.write (.ofLimits ⟨8192, 2000⟩) = (.ok 8208, t) ∧
    (k.read (.ofBytes t.data)).1 = .error (.textTooLong 1025 1024) := by
  -- the message is a text and a truth value
  have htext (t : String) : (Kind.scalar (.text t)).Reachable := .free trivial
  have hbool (b : Bool) : (Kind.scalar (.bool b)).Reachable := .free trivial
  have hone (t : String) := Kind.Reachable.addField .empty (htext t)
    (show GroupOf.addField _ ⟨none, _⟩ false = _ from rfl)
  have hpair (t : String) (b : Bool) : (Kind.group ⟨[⟨none, .scalar (.text t)⟩,
      ⟨none, .scalar (.bool b)⟩], [], .replicate 0, [], none⟩).Reachable :=
    .addField (hone t) (hbool b) (show GroupOf.addField _ ⟨none, _⟩ false = _ from rfl)
  have hreg : Kind.EmitsOnly Kind.Regular (.group ⟨[⟨none, .scalar (.text "hi")⟩,
      ⟨none, .scalar (.bool true)⟩], [], .replicate 0, [], none⟩) := by
    refine Kind.emitsOnly_group.2 ⟨trivial, ?_, List.forall_mem_nil _⟩
    exact List.forall_mem_cons.2 ⟨Kind.emitsOnly_scalar.2 trivial,
      List.forall_mem_cons.2 ⟨Kind.emitsOnly_scalar.2 trivial, List.forall_mem_nil _⟩⟩
  have hsent : (Message.write ⟨.chat, ⟨[⟨none, .scalar (.text "hi")⟩,
      ⟨none, .scalar (.bool true)⟩], [], .replicate 0, [], none⟩⟩ (.ofLimits {})).1 = .ok 25 := by
    decide +kernel
  have hdelivered := datagram_delivered.2 ⟨.chat, _⟩ ⟨.chat, _⟩ (hpair "hi" true) (hpair "" false)
    rfl hreg (Prod.ext hsent rfl)
  -- the long text is made of one letter
  have hbytes (n : Nat) : (String.ofList (List.replicate n 'a')).toUTF8.data.toList =
      List.replicate n 97 := by
    have hbyte : String.utf8EncodeChar 'a' = [97] := by decide
    rw [String.toUTF8, String.toByteArray_ofList, List.utf8Encode]
    simp [hbyte, List.flatMap_replicate]
  have hsize (n : Nat) : (String.ofList (List.replicate n 'a')).utf8ByteSize = n :=
    (congrArg List.length (hbytes n)).trans List.length_replicate
  have hzero : (0 : UInt8) ∉ (String.ofList (List.replicate 1025 'a')).toUTF8.data := by
    rw [← Array.mem_toList_iff, hbytes, List.mem_replicate]
    simp
  have hk := htext (String.ofList (List.replicate 1025 'a'))
  obtain ⟨t, hwrite⟩ := Kind.exists_write hk.wellFormed (.ofLimits ⟨8192, 2000⟩)
    (Kind.emitsOnly_scalar.2 ⟨Nat.le_trans (Nat.le_of_eq (hsize 1025)) (by decide), hzero⟩)
    (by rw [Kind.size, Scalar.size, hsize]; decide)
  rw [Kind.size, Scalar.size, hsize] at hwrite
  have hlong := datagram_delivered.1 _ _ hk hk rfl (Kind.emitsOnly_scalar.2 trivial) hwrite
  refine ⟨_, _, _, _, t, Prod.ext hsent rfl, hdelivered, by decide +kernel, by decide +kernel,
    hwrite, ?_⟩
  rcases hr : ((Kind.scalar (.text (String.ofList (List.replicate 1025 'a')))).read
    (BitStream.ofBytes t.data)).1 with e | n
  · rw [hlong.of_error e hr]
  · have hle := hlong.ok_iff.1 ⟨n, hr⟩ _ (.root _)
    rw [hsize] at hle
    omega

end WireTree
