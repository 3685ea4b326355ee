/-
**Limits only cut off.**

A stream has two limits, a capacity and a greatest length of texts.  If both are loosened, nothing
that went through before changes: the same bits are written and the same values are read.  Nor does
a failure change that has another cause.  What a limit did cut off goes further with looser limits,
and what had been written or read until then stays as it was.

A plain buffer over the stream, which imposes no limit on texts, is one way to loosen limits.

Main definitions:

* `WireTree.BitStream.Loosens` — the same contents and positions under looser limits;
* `WireTree.WireError.CutsOff` — the failures that come from a limit;
* `WireTree.Pace.looserWrites`, `WireTree.Pace.looserReads` — how the two streams stand to each
  other in writing and in reading.

Main results:

* `WireTree.Pace.writes_looserWrites`, `WireTree.Pace.reads_looserReads` — single transfers go in
  step;
* `WireTree.limits_only_cut_off` — **limits only cut off**.
-/

import WireTree.Proofs.Component.InStep

set_option relaxedAutoImplicit false
set_option autoImplicit false

namespace WireTree

/-! ### Looser limits -/

/-- The second stream is the first under looser limits. -/
structure BitStream.Loosens (s t : BitStream) : Prop where
  /-- The contents. -/
  data_eq : t.data = s.data
  /-- The position for writing. -/
  writePos_eq : t.writePos = s.writePos
  /-- The position for reading. -/
  readPos_eq : t.readPos = s.readPos
  /-- The capacity. -/
  capacityBits_le : s.capacityBits ≤ t.capacityBits
  /-- The limit on texts. -/
  maxTextBytes_le : s.maxTextBytes ≤ t.maxTextBytes

namespace BitStream.Loosens

variable {s t : BitStream}

theorem bits_eq (h : s.Loosens t) : t.bits = s.bits := by
  rw [bits, bits, h.data_eq, h.writePos_eq]

theorem remaining_eq (h : s.Loosens t) : t.remaining = s.remaining := by
  rw [remaining, remaining, h.writePos_eq, h.readPos_eq]

theorem peek_eq (h : s.Loosens t) (count : Nat) : t.peek count = s.peek count := by
  rw [peek, peek, h.data_eq, h.readPos_eq]

theorem wellFormed (h : s.Loosens t) (hs : s.WellFormed) : t.WellFormed where
  size_data := by
    rw [h.data_eq, h.writePos_eq]
    exact hs.size_data
  unwritten j hj := by
    rw [h.data_eq]
    exact hs.unwritten j (by rwa [← h.writePos_eq])
  readPos_le := by
    rw [h.readPos_eq, h.writePos_eq]
    exact hs.readPos_le
  writePos_le := by
    rw [h.writePos_eq]
    exact Nat.le_trans hs.writePos_le h.capacityBits_le

/-- The stream seen through a plain buffer, which imposes no limit on texts. -/
theorem noTextLimit (h : s.maxTextBytes ≤ noTextLimit) :
    s.Loosens (s.withMaxTextBytes WireTree.noTextLimit) :=
  ⟨rfl, rfl, rfl, Nat.le_refl _, h⟩

end BitStream.Loosens

/-- The failures that come from a limit. -/
def WireError.CutsOff : WireError → Prop
  | .overflow .. | .textTooLong .. => True
  | _ => False

/-! ### Single transfers -/

/-- A write keeps the bits that are there and does not move the read position. -/
theorem BitStream.prefix_of_writeBits {s : BitStream} (hs : s.WellFormed) (value : UInt32)
    (count : Nat) :
    (s.writeBits value count).2.WellFormed ∧ s.bits <+: (s.writeBits value count).2.bits ∧
      (s.writeBits value count).2.readPos = s.readPos := by
  rcases h : s.writeBits value count with ⟨e | _, s'⟩
  · rw [eq_of_writeBits_error h]
    exact ⟨hs, List.prefix_rfl, rfl⟩
  · obtain ⟨happ, -⟩ := appends_of_writeBits hs h
    exact ⟨happ.wellFormed, ⟨_, happ.bits_eq.symm⟩, happ.readPos_eq⟩

namespace Pace

/-- Writing under looser limits: a stream that was cut off has written the beginning of what the
other has. -/
def looserWrites : Pace where
  stop := WireError.CutsOff
  related s t := s.Loosens t ∧ t.WellFormed
  ahead s t := s.bits <+: t.bits ∧ t.WellFormed

/-- Reading under looser limits: a stream that was cut off has been read less far than the other. -/
def looserReads : Pace where
  stop e := ∃ len max, e = .textTooLong len max
  related := BitStream.Loosens
  ahead s t := s.readPos ≤ t.readPos

/-- A number is written in step, or there is no room for it under the tighter limits. -/
theorem inStep_writeBits {s t : BitStream} (value : UInt32) (count : Nat)
    (h : looserWrites.related s t) :
    looserWrites.InStep (s.writeBits value count) (t.writeBits value count) := by
  obtain ⟨h, ht⟩ := h
  obtain ⟨hwf, hbegin, -⟩ := BitStream.prefix_of_writeBits ht value count
  by_cases hc : count ≤ maxTransferBits
  · by_cases hroom : s.writePos + count ≤ s.capacityBits
    · have hroom' : t.writePos + count ≤ t.capacityBits := by
        rw [h.writePos_eq]
        exact Nat.le_trans hroom h.capacityBits_le
      rw [BitStream.writeBits_of_le hc hroom'] at hwf ⊢
      rw [BitStream.writeBits_of_le hc hroom]
      exact .same ⟨⟨by rw [h.data_eq, h.writePos_eq], by rw [h.writePos_eq], h.readPos_eq,
        h.capacityBits_le, h.maxTextBytes_le⟩, hwf⟩
    · rw [BitStream.writeBits_of_capacity_lt hc (Nat.lt_of_not_le hroom)]
      exact .stopped trivial ⟨by rwa [h.bits_eq] at hbegin, hwf⟩
  · have hwide : maxTransferBits < count := Nat.lt_of_not_le hc
    rw [BitStream.writeBits_of_lt hwide, BitStream.writeBits_of_lt hwide]
    exact .same ⟨h, ht⟩

theorem writes_looserWrites : looserWrites.Writes where
  bits := inStep_writeBits
  limits := by
    rintro s t ⟨h, ht⟩
    have hbegin : s.bits <+: t.bits := ⟨[], by rw [List.append_nil, h.bits_eq]⟩
    exact .inr ⟨h.maxTextBytes_le, ⟨hbegin, ht⟩, fun _ _ => trivial⟩
  ahead value count := by
    rintro ⟨hbegin, ht⟩
    obtain ⟨hwf, hbegin', -⟩ := BitStream.prefix_of_writeBits ht value count
    exact ⟨hbegin.trans hbegin', hwf⟩

/-- A number is read in step: the capacity does not matter. -/
theorem inStep_readBits_looser {s t : BitStream} (count : Nat) (h : s.Loosens t) :
    looserReads.InStep (s.readBits count) (t.readBits count) := by
  by_cases hc : count ≤ maxTransferBits
  · by_cases hr : count ≤ s.remaining
    · rw [BitStream.readBits_of_le hc hr,
        BitStream.readBits_of_le hc (by rwa [h.remaining_eq]), h.peek_eq]
      exact .same ⟨h.data_eq, h.writePos_eq, by rw [h.readPos_eq], h.capacityBits_le,
        h.maxTextBytes_le⟩
    · have hr' : s.remaining < count := Nat.lt_of_not_le hr
      rw [BitStream.readBits_of_remaining_lt hc hr',
        BitStream.readBits_of_remaining_lt hc (by rwa [h.remaining_eq]), h.remaining_eq]
      exact .same h
  · have hwide : maxTransferBits < count := Nat.lt_of_not_le hc
    rw [BitStream.readBits_of_lt hwide, BitStream.readBits_of_lt hwide]
    exact .same h

theorem reads_looserReads : looserReads.Reads where
  bits := inStep_readBits_looser
  limits h := .inr ⟨h.maxTextBytes_le, Nat.le_of_eq h.readPos_eq.symm, fun _ _ => ⟨_, _, rfl⟩⟩
  ahead {s t} count hahead := by
    have hread : t.readPos ≤ (t.readBits count).2.readPos := by
      rcases h : t.readBits count with ⟨e | word, t'⟩
      · exact Nat.le_of_eq (congrArg BitStream.readPos (BitStream.eq_of_readBits_error h).symm)
      · obtain ⟨rfl, -⟩ := BitStream.eq_advance_of_readBits h
        exact Nat.le_add_right ..
    exact Nat.le_trans hahead hread

end Pace

/-! ### Components -/

/-- Whatever is written, and however far, stands behind the bits that were there. -/
theorem Kind.prefix_of_write (k : Kind) {s : BitStream} (hs : s.WellFormed) :
    s.bits <+: (k.write s).2.bits ∧ (k.write s).2.readPos = s.readPos := by
  have h := k.write_preserves
    (P := fun x => x.WellFormed ∧ s.bits <+: x.bits ∧ x.readPos = s.readPos)
    (by
      rintro x value count ⟨hwf, hbegin, hread⟩
      obtain ⟨hwf', hbegin', hread'⟩ := BitStream.prefix_of_writeBits hwf value count
      exact ⟨hwf', hbegin.trans hbegin', hread'.trans hread⟩)
    ⟨hs, List.prefix_rfl, rfl⟩
  exact h.2

/-- **Limits only cut off.**  A component is written to two streams, and read from them, of which
the second has looser limits.  Both writes keep the bits that were there and the read position, also
when they fail, and append bits: those appended to the first stream are a prefix of those appended
to the second, and the same bits with the same answer unless the first was cut off by a limit.  The
second read ends at the same position or behind it, and it has the same answer, the same component
and the same position unless a text was too long for the first stream. -/
theorem limits_only_cut_off (k : Kind) {s t : BitStream} (hs : s.Reachable) (h : s.Loosens t) :
    (∃ w w', (k.write s).2.bits = s.bits ++ w ∧ (k.write t).2.bits = t.bits ++ w' ∧
      (k.write s).2.readPos = s.readPos ∧ (k.write t).2.readPos = t.readPos ∧ w <+: w' ∧
      ((∀ e, (k.write s).1 = .error e → ¬ e.CutsOff) →
        (k.write t).1 = (k.write s).1 ∧ w' = w ∧ (k.write s).2.Loosens (k.write t).2)) ∧
    ((k.read s).2.2.readPos ≤ (k.read t).2.2.readPos ∧
      ((∀ len max, (k.read s).1 ≠ .error (.textTooLong len max)) →
        (k.read t).1 = (k.read s).1 ∧ (k.read t).2.1 = (k.read s).2.1 ∧
          (k.read t).2.2.readPos = (k.read s).2.2.readPos ∧
          (k.read s).2.2.Loosens (k.read t).2.2)) := by
  have ht := h.wellFormed hs.wellFormed
  refine ⟨?_, ?_⟩
  · obtain ⟨⟨w, hw⟩, hread⟩ := k.prefix_of_write hs.wellFormed
    obtain ⟨⟨w', hw'⟩, hread'⟩ := k.prefix_of_write ht
    have hstep := Pace.writes_looserWrites.kind k ⟨h, ht⟩
    refine ⟨w, w', hw.symm, hw'.symm, hread, hread', ?_⟩
    rcases hwrite : k.write s with ⟨r, s'⟩
    rcases hwrite' : k.write t with ⟨r', t'⟩
    rw [hwrite, hwrite'] at hstep
    rw [hwrite] at hw
    rw [hwrite', h.bits_eq] at hw'
    cases hstep with
    | same hst =>
        have heq : w' = w := by
          refine List.append_cancel_left (hw'.trans ?_)
          rw [hw, hst.1.bits_eq]
        rw [heq]
        exact ⟨List.prefix_rfl, fun _ => ⟨rfl, rfl, hst.1⟩⟩
    | @stopped e _ _ hstop hahead =>
        obtain ⟨hbegin, -⟩ := hahead
        refine ⟨?_, fun hcut => absurd hstop (hcut e rfl)⟩
        rw [← hw, ← hw'] at hbegin
        exact (List.prefix_append_right_inj s.bits).1 hbegin
  · have hstep := Pace.reads_looserReads.kind k h
    rcases hread : k.read s with ⟨r, k₁, s'⟩
    rcases hread' : k.read t with ⟨r', k₂, t'⟩
    rw [hread, hread'] at hstep
    cases hstep with
    | same hst =>
        exact ⟨Nat.le_of_eq hst.readPos_eq.symm, fun _ => ⟨rfl, rfl, hst.readPos_eq, hst⟩⟩
    | @stopped e _ _ _ hstop hahead =>
        obtain ⟨len, max, rfl⟩ := hstop
        exact ⟨hahead, fun hcut => absurd rfl (hcut len max)⟩

/-- Two bytes are admitted of a text of three, and two bytes fit: the text is refused before it is
written, and read up to its last byte.  Without a limit on texts it is written as far as there is
room, and read to its end. -/
theorem limits_only_cut_off_text : ∃ (k : Kind) (s t u v : BitStream), s.Reachable ∧ s.Loosens t ∧
    u.Reachable ∧ u.Loosens v ∧
    (k.write s).1 = .error (.textTooLong 3 2) ∧ (k.write t).1 = .error (.overflow 24 16) ∧
    (k.read u).1 = .error (.textTooLong 3 2) ∧ (k.read v).1 = .ok 32 ∧
    (k.write s).2.bits <+: (k.write t).2.bits ∧
    (k.read u).2.2.readPos ≤ (k.read v).2.2.readPos := by
  have hs : (BitStream.Origin.limits ⟨2, 2⟩).stream.Reachable := .origin _
  have hu : ((BitStream.Origin.received #[97, 98, 99, 0]).stream.withMaxTextBytes 2).Reachable :=
    .withMaxTextBytes 2 (.origin _)
  obtain ⟨⟨w, w', hw, hw', -, -, hbegin, -⟩, -⟩ := limits_only_cut_off (.scalar (.text "abc")) hs
    (BitStream.Loosens.noTextLimit (by decide))
  obtain ⟨-, hread, -⟩ := limits_only_cut_off (.scalar (.text "abc")) hu
    (BitStream.Loosens.noTextLimit (by decide))
  refine ⟨.scalar (.text "abc"), _, _, _, _, hs, .noTextLimit (by decide), hu,
    .noTextLimit (by decide), by decide +kernel, by decide +kernel, by decide +kernel,
    by decide +kernel, ?_, hread⟩
  rw [hw, hw']
  exact (List.prefix_append_right_inj _).2 hbegin

end WireTree
