/-
**Limits that have no problem hold the texts they admit.**

A text needs a byte more than it has, for the zero behind it, so a stream holds all texts that it
admits just if the buffer is larger than the longest of them.  That is what is asked of limits where
the buffer and the texts are each of a sensible size.  Other limits are refused, whatever they hold:
with a buffer near `2 ^ 64` bytes the capacity in bits is cut off, which never happens to limits
that are accepted.

Main definitions:

* `WireTree.Limits.Sensible` — the buffer and the texts, each by itself;
* `WireTree.Limits.HoldsTexts` — an empty stream takes every text that the limits admit.

Main results:

* `WireTree.Limits.problems_eq_nil_iff_fits` — which limits have no problem;
* `WireTree.Limits.holdsTexts_iff` — which limits hold their texts;
* `WireTree.Limits.accepted_limits_hold_texts` — **the two agree**; what accepted limits promise.
-/

import WireTree.Proofs.Ascii
import WireTree.Proofs.BitStream.Texts

set_option relaxedAutoImplicit false
set_option autoImplicit false

namespace WireTree.Limits

/-- The buffer holds a byte and is not larger than is sensible, and not only the empty text is
admitted. -/
structure Sensible (l : Limits) : Prop where
  buffer_pos : 0 < l.maxBufferBytes.toNat
  buffer_le : l.maxBufferBytes.toNat ≤ maxSensibleBytes
  text_pos : 0 < l.maxTextBytes.toNat

/-- Every text that the limits admit, if it has no zero byte, can be written to an empty stream with
these limits. -/
def HoldsTexts (l : Limits) : Prop :=
  ∀ text : String, (0 : UInt8) ∉ text.toUTF8.data → text.utf8ByteSize ≤ l.maxTextBytes.toNat →
    ∃ s, (BitStream.ofLimits l).writeText text = (.ok (), s)

variable {l : Limits}

theorem bufferProblems_eq_nil_iff : l.bufferProblems = [] ↔
    0 < l.maxBufferBytes.toNat ∧ l.maxBufferBytes.toNat ≤ maxSensibleBytes := by
  rw [bufferProblems]
  split
  · simp; omega
  · split
    · simp; omega
    · simp; omega

theorem textProblems_eq_nil_iff : l.textProblems = [] ↔
    0 < l.maxTextBytes.toNat ∧ l.maxTextBytes.toNat < l.maxBufferBytes.toNat := by
  rw [textProblems]
  split
  · simp; omega
  · split
    · simp; omega
    · simp; omega

/-- Limits have no problem if they are sensible and the longest text leaves room for the zero behind
it. -/
theorem problems_eq_nil_iff_fits :
    l.problems = [] ↔ l.Sensible ∧ l.maxTextBytes.toNat < l.maxBufferBytes.toNat := by
  rw [problems_eq_nil_iff, bufferProblems_eq_nil_iff, textProblems_eq_nil_iff]
  constructor
  · rintro ⟨⟨hpos, hle⟩, htext, hlt⟩
    exact ⟨⟨hpos, hle, htext⟩, hlt⟩
  · rintro ⟨⟨hpos, hle, htext⟩, hlt⟩
    exact ⟨⟨hpos, hle⟩, htext, hlt⟩

/-- The capacity in bits of a sensible buffer is not cut off. -/
theorem Sensible.capacityBits_eq (h : l.Sensible) :
    l.capacityBits = 8 * l.maxBufferBytes.toNat := by
  have hle := h.buffer_le
  rw [capacityBits, Nat.min_eq_left]
  rw [maxSensibleBytes] at hle
  omega

/-- An empty stream holds all admitted texts if the longest of them and a zero byte fit; the longest
one, of one letter throughout, needs as much. -/
theorem holdsTexts_iff : l.HoldsTexts ↔ 8 * (l.maxTextBytes.toNat + 1) ≤ l.capacityBits := by
  have hwf := BitStream.WellFormed.ofLimits l
  have hstart : (BitStream.ofLimits l).writePos = 0 := rfl
  have hcapacity : (BitStream.ofLimits l).capacityBits = l.capacityBits := rfl
  constructor
  · intro hall
    have hletter : 'a'.toNat < 128 := by decide
    have hbytes := bytes_replicate hletter l.maxTextBytes.toNat
    have hsize := congrArg List.length hbytes
    rw [length_bytes, List.length_replicate] at hsize
    have hzero : (0 : UInt8) ∉
        (String.ofList (List.replicate l.maxTextBytes.toNat 'a')).toUTF8.data := by
      rw [← Array.mem_toList_iff, hbytes, List.mem_replicate]
      exact fun h => absurd h.2 (by decide)
    obtain ⟨-, hroom⟩ :=
      (BitStream.exists_writeText_iff hwf).1 (hall _ hzero (Nat.le_of_eq hsize))
    rwa [hsize, hstart, hcapacity, Nat.zero_add] at hroom
  · intro hroom text hzero hle
    refine (BitStream.exists_writeText_iff hwf).2
      ⟨BitStream.textFault_eq_none_iff.2 ⟨hle, hzero⟩, ?_⟩
    rw [hstart, hcapacity]
    omega

/-- A text that was written to an empty stream is read back, and nothing is left. -/
theorem readText_of_writeText {text : String} {s : BitStream}
    (h : (BitStream.ofLimits l).writeText text = (.ok (), s)) :
    s.readText = (.ok text, s.advance s.remaining) := by
  obtain ⟨happ, hfault⟩ := BitStream.appends_of_writeText (.ofLimits l) h
  have hunread : s.unread = textBits text ++ [] := by
    rw [BitStream.unread, happ.bits_eq, happ.readPos_eq, List.append_nil]
    rfl
  have hremaining : s.remaining = 8 * (text.utf8ByteSize + 1) := by
    rw [← happ.wellFormed.length_unread, hunread, List.append_nil, length_textBits]
  rw [hremaining]
  refine BitStream.readText_of_unread happ.wellFormed ?_ hunread
  rwa [BitStream.textFault, happ.maxTextBytes_eq]

/-- A text that is longer than the stream admits is refused, and the stream stays as it was. -/
theorem writeText_of_overlong {s : BitStream} {text : String}
    (h : s.maxTextBytes < text.utf8ByteSize) :
    s.writeText text = (.error (.textTooLong text.utf8ByteSize s.maxTextBytes), s) :=
  BitStream.writeText_of_fault (if_pos h)

/-- **Accepted limits hold the texts they admit.**  Among limits that are sensible those without a
problem are just those whose empty stream takes every text that they admit, up to the longest; and
no others are without a problem.  Whatever the limits, a text that an empty stream has taken is read
back unchanged.  If the limits have no problem, a longer text is refused by every stream with these
limits, which stays as it was, and the capacity in bits is that of the buffer. -/
theorem accepted_limits_hold_texts (l : Limits) :
    (l.Sensible → (l.problems = [] ↔ l.HoldsTexts)) ∧ (¬l.Sensible → l.problems ≠ []) ∧
    (∀ text s, (BitStream.ofLimits l).writeText text = (.ok (), s) →
      s.readText = (.ok text, s.advance s.remaining)) ∧
    (l.problems = [] →
      (BitStream.ofLimits l).capacityBits = 8 * l.maxBufferBytes.toNat ∧
      ∀ (s : BitStream) (text : String), s.maxTextBytes = l.maxTextBytes.toNat →
        l.maxTextBytes.toNat < text.utf8ByteSize → s.writeText text =
          (.error (.textTooLong text.utf8ByteSize l.maxTextBytes.toNat), s)) := by
  refine ⟨?_, ?_, ?_, ?_⟩
  · intro h
    rw [problems_eq_nil_iff_fits, holdsTexts_iff, h.capacityBits_eq]
    constructor
    · rintro ⟨-, hlt⟩
      omega
    · intro hroom
      exact ⟨h, by omega⟩
  · intro h hnil
    exact h (problems_eq_nil_iff_fits.1 hnil).1
  · intro text s hwrite
    exact readText_of_writeText hwrite
  · intro hnil
    obtain ⟨h, -⟩ := problems_eq_nil_iff_fits.1 hnil
    refine ⟨h.capacityBits_eq, ?_⟩
    intro s text hmax hlong
    rw [← hmax] at hlong ⊢
    exact writeText_of_overlong hlong

/-- A buffer of three bytes holds the texts of two bytes, one of two bytes does not; a text of one
character and three bytes is too long. -/
theorem accepted_limits_hold_texts_tight :
    (⟨3, 2⟩ : Limits).problems = [] ∧ (⟨3, 2⟩ : Limits).HoldsTexts ∧
    (⟨2, 2⟩ : Limits).problems = [.textOutgrowsBuffer 2 2] ∧ ¬(⟨2, 2⟩ : Limits).HoldsTexts ∧
    (BitStream.ofLimits ⟨3, 2⟩).capacityBits = 24 ∧
    (BitStream.ofLimits ⟨3, 2⟩).writeText "€" =
      (.error (.textTooLong 3 2), BitStream.ofLimits ⟨3, 2⟩) := by
  have hfits : (⟨3, 2⟩ : Limits).Sensible := ⟨by decide, by decide, by decide⟩
  have htight : (⟨2, 2⟩ : Limits).Sensible := ⟨by decide, by decide, by decide⟩
  obtain ⟨hholds, -, -, haccepted⟩ := accepted_limits_hold_texts ⟨3, 2⟩
  obtain ⟨hcapacity, hlong⟩ := haccepted rfl
  refine ⟨rfl, (hholds hfits).1 rfl, rfl, ?_, hcapacity, hlong _ "€" rfl (by decide)⟩
  intro h
  exact absurd (((accepted_limits_hold_texts ⟨2, 2⟩).1 htight).2 h) (by decide)

end WireTree.Limits
