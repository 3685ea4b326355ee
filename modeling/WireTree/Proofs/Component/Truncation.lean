/-
**A truncated encoding is detected.**

A reader that is given only the beginning of what was written makes the decisions the writer made,
bit for bit, until it asks for bits that are not there.  So it cannot take the shorter bits for
something else, and it cannot complain about anything before it misses them: on the whole encoding
it would have gone through, and up to the end of the shorter one the two reads are the same.

Nothing of this depends on what the reader held before.  It follows that the encodings of the
components of one layout are a prefix-free code.

Main definitions:

* `WireTree.Pace.shorter` — the first stream has fewer bits, and a missing bit stops the run.

Main results:

* `WireTree.Pace.shorter_reads` — single reads go in step with those from a longer stream;
* `WireTree.truncated_underruns` — **a truncated encoding is detected**.
-/

import WireTree.Proofs.Component.Decoding
import WireTree.Proofs.Component.InStep
import WireTree.Proofs.Component.RoundTrip

set_option relaxedAutoImplicit false
set_option autoImplicit false

namespace WireTree

/-! ### A stream with fewer bits -/

/-- The unread bits of the first stream are the first unread bits of the second. -/
structure BitStream.Begins (s t : BitStream) : Prop where
  /-- The first stream is well-formed. -/
  left : s.WellFormed
  /-- The second stream is well-formed. -/
  right : t.WellFormed
  /-- The limits on texts are the same. -/
  maxTextBytes_eq : s.maxTextBytes = t.maxTextBytes
  /-- What is unread. -/
  unread_begins : s.unread <+: t.unread

namespace Pace

/-- The first stream has fewer bits, and a missing bit stops the run. -/
def shorter : Pace where
  stop e := ∃ requested available, e = .underrun requested available
  related := BitStream.Begins
  ahead _ _ := True

/-- A number is read in step: it is the same on the longer stream, or bits are missing. -/
theorem inStep_readBits {s t : BitStream} (count : Nat) (h : s.Begins t) :
    shorter.InStep (s.readBits count) (t.readBits count) := by
  by_cases hc : count ≤ maxTransferBits
  · rcases hs : s.readBits count with ⟨e | word, s'⟩
    · -- a transfer that is not too wide fails for lack of bits only
      have hr : s.remaining < count := by
        refine Nat.lt_of_not_le ?_
        intro hr
        rw [BitStream.readBits_of_le hc hr] at hs
        cases hs
      rw [BitStream.readBits_of_remaining_lt hc hr] at hs
      cases hs
      exact .stopped ⟨_, _, rfl⟩ trivial
    · have htake := BitStream.takes_of_readBits h.left hs
      have hlt := BitStream.toNat_lt_of_readBits hs
      obtain ⟨more, hmore⟩ := h.unread_begins
      rw [htake.unread_eq, List.append_assoc] at hmore
      have ht := BitStream.readBits_of_unread h.right hc hmore.symm
      rw [Nat.mod_eq_of_lt hlt, UInt32.ofNat_toNat] at ht
      obtain ⟨hright, hunread⟩ := h.right.advance (Bits.length_ofNat ..) hmore.symm
      rw [ht]
      refine .same ⟨htake.wellFormed h.left, hright, ?_, ?_⟩
      · rw [htake.maxTextBytes_eq, BitStream.maxTextBytes_advance, h.maxTextBytes_eq]
      · exact ⟨more, hunread.symm⟩
  · have hwide : maxTransferBits < count := Nat.lt_of_not_le hc
    rw [BitStream.readBits_of_lt hwide, BitStream.readBits_of_lt hwide]
    exact .same h

theorem shorter_reads : shorter.Reads where
  bits := inStep_readBits
  limits h := .inl h.maxTextBytes_eq
  ahead _ _ := trivial

end Pace

/-! ### Truncated encodings -/

namespace Kind

variable {c d : Kind} {t : BitStream}

/-- There is a stream of which just the encoding of a component is unread. -/
theorem exists_unread_encode (hc : c.WellFormed) {limit : Nat}
    (hsend : c.EmitsOnly (Sendable limit)) :
    ∃ u : BitStream, u.WellFormed ∧ u.maxTextBytes = limit ∧ u.unread = c.encode := by
  have hempty : (⟨#[], 0, 0, c.size, limit⟩ : BitStream).WellFormed :=
    ⟨by simp, fun j _ => Bits.bitAt_of_le (Nat.zero_le j), Nat.le_refl 0, Nat.zero_le _⟩
  obtain ⟨u, hwrite⟩ := exists_write hc hempty hsend (Nat.le_of_eq (Nat.zero_add _))
  obtain ⟨-, happ, -⟩ := appends_of_write hc hempty hwrite
  refine ⟨u, happ.wellFormed, happ.maxTextBytes_eq, ?_⟩
  rw [BitStream.unread, happ.readPos_eq, List.drop_zero, happ.bits_eq]
  rfl

/-- Whoever reads only the beginning of an encoding misses bits. -/
theorem underruns_of_prefix (hc : c.WellFormed) (hreg : c.EmitsOnly Regular) (hd : d.WellFormed)
    (hlayout : d.layout = c.layout) (ht : t.WellFormed)
    (hsend : c.EmitsOnly (Sendable t.maxTextBytes)) (hbegin : t.unread <+: c.encode)
    (hne : t.unread ≠ c.encode) :
    ∃ requested available, (d.read t).1 = .error (.underrun requested available) := by
  obtain ⟨u, hu, hlimit, hunread⟩ := exists_unread_encode hc hsend
  have hwhole : u.unread = c.encode ++ [] := by rw [hunread, List.append_nil]
  have hbegins : t.Begins u := ⟨ht, hu, hlimit.symm, by rwa [hunread]⟩
  -- on the whole encoding the read goes through
  obtain ⟨d', hread, -⟩ := recovers hc hreg d u [] hd hlayout hu (by rwa [hlimit]) hwhole
  have hstep := Pace.shorter_reads.kind d hbegins
  rcases hshort : d.read t with ⟨r, d₁, t'⟩
  rw [hread, hshort] at hstep
  cases hstep with
  | same _ =>
      -- a shorter read that goes through would have taken as many bits
      obtain ⟨hsize, htakes, -⟩ := takes_of_read hd ht hshort
      have hwf := hd.read t
      rw [hshort] at hwf
      have hlen := congrArg List.length htakes.unread_eq
      rw [List.length_append, hwf.length_encode, ← hsize, ← hc.length_encode] at hlen
      exact absurd (hbegin.eq_of_length_le (by omega)) hne
  | stopped hstop _ =>
      obtain ⟨requested, available, rfl⟩ := hstop
      exact ⟨requested, available, rfl⟩

end Kind

/-- **A truncated encoding is detected.**  A regular component has been written as the bits `w`.
Whoever reads with a component of its layout, whatever that holds, from a stream of which a strict
prefix of `w` is unread and which admits texts as long, fails, and misses bits.  So no regular
component of the layout is written, on any stream, as a strict prefix of `w`. -/
theorem truncated_underruns {c : Kind} {s s' : BitStream} {n : Nat} {w : List Bool}
    (hc : c.Reachable) (hreg : c.EmitsOnly Kind.Regular) (hs : s.Reachable)
    (hwrite : c.write s = (.ok n, s')) (hbits : s'.bits = s.bits ++ w) :
    (∀ (d : Kind) (t : BitStream), d.Reachable → d.layout = c.layout → t.Reachable →
      s.maxTextBytes ≤ t.maxTextBytes → t.unread <+: w → t.unread ≠ w →
      ∃ requested available, (d.read t).1 = .error (.underrun requested available)) ∧
    ∀ (c' : Kind) (t t' : BitStream) (m : Nat) (w' : List Bool), c'.Reachable →
      c'.layout = c.layout → c'.EmitsOnly Kind.Regular → t.Reachable →
      c'.write t = (.ok m, t') → t'.bits = t.bits ++ w' → w' <+: w → w' = w := by
  obtain ⟨-, happ, hsend⟩ := Kind.appends_of_write hc.wellFormed hs.wellFormed hwrite
  obtain rfl : w = c.encode := List.append_cancel_left (hbits.symm.trans happ.bits_eq)
  refine ⟨?_, ?_⟩
  · intro d t hd hlayout ht hlimit hbegin hne
    exact Kind.underruns_of_prefix hc.wellFormed hreg hd.wellFormed hlayout ht.wellFormed
      (hsend.imp fun node hnode => hnode.mono hlimit) hbegin hne
  · intro c' t t' m w' hc' hlayout hreg' ht hwrite' hbits' hbegin
    obtain ⟨-, happ', hsend'⟩ := Kind.appends_of_write hc'.wellFormed ht.wellFormed hwrite'
    obtain rfl : w' = c'.encode := List.append_cancel_left (hbits'.symm.trans happ'.bits_eq)
    refine Decidable.byContradiction ?_
    intro hne
    -- the shorter component reads itself back, and as a reader of the longer one it fails
    have hsends := hsend.imp fun node hnode => hnode.mono (Nat.le_max_left _ t.maxTextBytes)
    have hsends' := hsend'.imp fun node hnode => hnode.mono (Nat.le_max_right s.maxTextBytes _)
    obtain ⟨u, hu, hlimit, hunread⟩ := Kind.exists_unread_encode hc'.wellFormed hsends'
    have hwhole : u.unread = c'.encode ++ [] := by rw [hunread, List.append_nil]
    obtain ⟨d', hread, -⟩ := Kind.recovers hc'.wellFormed hreg' c' u [] hc'.wellFormed rfl hu
      (by rwa [hlimit]) hwhole
    obtain ⟨requested, available, herror⟩ := Kind.underruns_of_prefix hc.wellFormed hreg
      hc'.wellFormed hlayout hu (by rwa [hlimit]) (by rwa [hunread]) (by rwa [hunread])
    rw [hread] at herror
    cases herror

/-- A byte and a text are written, and the stream ends inside the text: a reader that held another
text misses the next byte. -/
theorem truncated_underruns_text : ∃ (c d : Kind) (s s' t : BitStream) (w : List Bool),
    c.Reachable ∧ d.Reachable ∧ d.layout = c.layout ∧ t.Reachable ∧
    c.write s = (.ok 32, s') ∧ s'.bits = s.bits ++ w ∧ t.unread <+: w ∧ t.unread ≠ w ∧
    ∃ requested available, (d.read t).1 = .error (.underrun requested available) := by
  have hbyte (n : UInt8) : (Kind.scalar (.u8 n)).Reachable := .free trivial
  have htext (text : String) : (Kind.scalar (.text text)).Reachable := .free trivial
  have hfirst (x : UInt8) := Kind.Reachable.addField .empty (hbyte x)
    (show GroupOf.addField _ ⟨none, _⟩ false = _ from rfl)
  have hgroup (x : UInt8) (text : String) := Kind.Reachable.addField (hfirst x) (htext text)
    (show GroupOf.addField _ ⟨some "name", _⟩ false = _ from rfl)
  have hs : (BitStream.Origin.limits {}).stream.Reachable := .origin _
  have ht : (BitStream.Origin.received #[5, 97]).stream.Reachable := .origin _
  have hreg : Kind.EmitsOnly Kind.Regular (.group ⟨[⟨none, .scalar (.u8 5)⟩,
      ⟨some "name", .scalar (.text "ab")⟩], [], ⟨#[], 0⟩, [("name", .required 1)], none⟩) := by
    refine Kind.emitsOnly_group.2 ⟨trivial, ?_, List.forall_mem_nil _⟩
    intro x hx
    rcases List.mem_pair.1 hx with rfl | rfl <;> exact Kind.emitsOnly_scalar.2 trivial
  have hsent : ((Kind.group ⟨[⟨none, .scalar (.u8 5)⟩, ⟨some "name", .scalar (.text "ab")⟩], [],
      ⟨#[], 0⟩, [("name", .required 1)], none⟩).write (BitStream.Origin.limits {}).stream).1 =
      .ok 32 := by decide +kernel
  obtain ⟨-, happ, -⟩ := Kind.appends_of_write (hgroup 5 "ab").wellFormed hs.wellFormed
    (Prod.ext hsent rfl)
  have hbegin : (BitStream.Origin.received #[5, 97]).stream.unread <+: Kind.encode (.group
      ⟨[⟨none, .scalar (.u8 5)⟩, ⟨some "name", .scalar (.text "ab")⟩], [], ⟨#[], 0⟩,
        [("name", .required 1)], none⟩) := by decide +kernel
  have hne : (BitStream.Origin.received #[5, 97]).stream.unread ≠ Kind.encode (.group
      ⟨[⟨none, .scalar (.u8 5)⟩, ⟨some "name", .scalar (.text "ab")⟩], [], ⟨#[], 0⟩,
        [("name", .required 1)], none⟩) := by decide +kernel
  obtain ⟨hunderrun, -⟩ :=
    truncated_underruns (hgroup 5 "ab") hreg hs (Prod.ext hsent rfl) happ.bits_eq
  exact ⟨_, _, _, _, _, _, hgroup 5 "ab", hgroup 9 "other", rfl, ht, Prod.ext hsent rfl,
    happ.bits_eq, hbegin, hne,
    hunderrun _ _ (hgroup 9 "other") rfl ht (by decide) hbegin hne⟩

end WireTree
