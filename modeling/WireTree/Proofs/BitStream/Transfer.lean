/-
**What a transfer does to the bits of a stream.**

The bytes of a stream are exactly as many as its bits need, and the places of the last one that
have not been written yet are zero.  The library never checks this; it is what makes or-ing a new
piece into the last byte the same as appending it.  A stream that has it, and whose two positions
are in order and within its capacity, is *well-formed*.

On a well-formed stream a transfer is described by the bits alone: a successful write appends a
word and a successful read takes one off the front of the unread bits.  All later modules speak of
a stream through the two relations `Appends` and `Takes` and never look at its bytes again.

Main definitions:

* `WireTree.BitStream.WellFormed` — the invariant of a stream;
* `WireTree.BitStream.Appends` — a stream that has got some bits more;
* `WireTree.BitStream.Takes` — a stream of which some bits more have been read.

Main results:

* `WireTree.BitStream.WellFormed.data_eq` — the bytes are the packing of the bits;
* `WireTree.BitStream.appends_of_writeBits`, `WireTree.BitStream.takes_of_readBits` — what a
  transfer that goes through has done;
* `WireTree.BitStream.readBits_of_unread` — a number is read back from its word.
-/

import WireTree.Proofs.BitStream.Packing

set_option relaxedAutoImplicit false
set_option autoImplicit false

namespace WireTree.BitStream

/-! ### Well-formed streams -/

/-- The bytes are as many as the bits written need, the places after the last bit are zero, and
the positions are in order and within the capacity. -/
structure WellFormed (s : BitStream) : Prop where
  /-- There is no byte too many and none too few. -/
  size_data : s.data.size = (s.writePos + 7) / 8
  /-- What has not been written is zero. -/
  unwritten : ∀ j, s.writePos ≤ j → Bits.bitAt s.data j = false
  /-- Only what was written has been read. -/
  readPos_le : s.readPos ≤ s.writePos
  /-- What was written fits. -/
  writePos_le : s.writePos ≤ s.capacityBits

namespace WellFormed

variable {s : BitStream}

theorem bits_eq (h : s.WellFormed) : s.bits = Bits.window s.data 0 s.writePos := by
  have hsize := h.size_data
  rw [bits, Bits.ofBytes_eq_window, Bits.take_window _ (by omega)]

theorem length_bits (h : s.WellFormed) : s.bits.length = s.writePos := by
  rw [h.bits_eq, Bits.length_window]

theorem length_unread (h : s.WellFormed) : s.unread.length = s.remaining := by
  rw [unread, List.length_drop, h.length_bits, remaining]

/-- The bytes are the packing of the bits. -/
theorem data_eq (h : s.WellFormed) : s.data.toList = Bits.toBytes s.bits := by
  rw [h.bits_eq, Bits.toBytes_window h.size_data h.unwritten]

theorem ofLimits (l : Limits) : (ofLimits l).WellFormed where
  size_data := by simp [BitStream.ofLimits]
  unwritten j _ := Bits.bitAt_of_le (Nat.zero_le j)
  readPos_le := Nat.le_refl 0
  writePos_le := Nat.zero_le _

theorem ofBytes (bytes : Array UInt8) : (ofBytes bytes).WellFormed where
  size_data := by
    simp only [BitStream.ofBytes]
    omega
  unwritten _ hj := Bits.bitAt_of_le hj
  readPos_le := Nat.zero_le _
  writePos_le := Nat.le_max_right ..

theorem rewind (h : s.WellFormed) : s.rewind.WellFormed :=
  { h with readPos_le := Nat.zero_le _ }

theorem clear (s : BitStream) : s.clear.WellFormed where
  size_data := by simp [BitStream.clear]
  unwritten j _ := Bits.bitAt_of_le (Nat.zero_le j)
  readPos_le := Nat.le_refl 0
  writePos_le := Nat.zero_le _

theorem withMaxTextBytes (h : s.WellFormed) (n : Nat) : (s.withMaxTextBytes n).WellFormed :=
  { h with }

end WellFormed

/-! ### Writing -/

/-- `s'` is `s` with the bits `w` appended. -/
structure Appends (s : BitStream) (w : List Bool) (s' : BitStream) : Prop where
  /-- The new stream is well-formed. -/
  wellFormed : s'.WellFormed
  /-- The bits `w` stand behind the old ones. -/
  bits_eq : s'.bits = s.bits ++ w
  /-- The read position stays. -/
  readPos_eq : s'.readPos = s.readPos
  /-- The capacity stays. -/
  capacityBits_eq : s'.capacityBits = s.capacityBits
  /-- The limit on texts stays. -/
  maxTextBytes_eq : s'.maxTextBytes = s.maxTextBytes

namespace Appends

variable {s s' s'' : BitStream} {v w : List Bool}

theorem refl (h : s.WellFormed) : Appends s [] s := ⟨h, by simp, rfl, rfl, rfl⟩

theorem trans (h : Appends s v s') (h' : Appends s' w s'') : Appends s (v ++ w) s'' where
  wellFormed := h'.wellFormed
  bits_eq := by rw [h'.bits_eq, h.bits_eq, List.append_assoc]
  readPos_eq := h'.readPos_eq.trans h.readPos_eq
  capacityBits_eq := h'.capacityBits_eq.trans h.capacityBits_eq
  maxTextBytes_eq := h'.maxTextBytes_eq.trans h.maxTextBytes_eq

theorem writePos_eq (h : Appends s w s') (hs : s.WellFormed) :
    s'.writePos = s.writePos + w.length := by
  rw [← h.wellFormed.length_bits, h.bits_eq, List.length_append, hs.length_bits]

end Appends

/-- Writing a number into a well-formed stream that has room for it appends its word. -/
theorem appends_deposit {s : BitStream} (hs : s.WellFormed) {count : Nat}
    (hc : count ≤ maxTransferBits) (hroom : s.writePos + count ≤ s.capacityBits)
    (value : UInt32) :
    Appends s (Bits.ofNat count value.toNat) { s with
      data := deposit s.data s.writePos value count, writePos := s.writePos + count } := by
  have hsize := hs.size_data
  have hread := hs.readPos_le
  have hc32 : count ≤ 32 := hc
  have hbit (j : Nat) : Bits.bitAt (deposit s.data s.writePos value count) j =
      (Bits.bitAt s.data j || (decide (s.writePos ≤ j ∧ j < s.writePos + count) &&
        value.toNat.testBit (s.writePos + count - 1 - j))) := by
    rw [deposit, pieces, Bits.bitAt_foldl_deposit (Nat.le_refl _) hc32 _
      (by rw [Bits.size_reserve]; omega), Bits.bitAt_reserve]
  have hwf : WellFormed { s with
      data := deposit s.data s.writePos value count, writePos := s.writePos + count } := by
    refine ⟨?_, ?_, ?_, hroom⟩
    · simp only [Bits.size_deposit]
      omega
    · intro j hj
      have hj' : s.writePos + count ≤ j := hj
      have hout : ¬ (s.writePos ≤ j ∧ j < s.writePos + count) := by omega
      rw [hbit, hs.unwritten j (by omega), decide_eq_false hout]
      rfl
    · exact Nat.le_trans hread (Nat.le_add_right ..)
  refine ⟨hwf, ?_, rfl, rfl, rfl⟩
  rw [hwf.bits_eq, hs.bits_eq]
  refine List.ext_getElem (by simp) ?_
  intro i h₁ h₂
  have hi : i < s.writePos + count := by simpa using h₁
  rw [Bits.getElem_window, Nat.zero_add, hbit]
  -- a position is an old one, which keeps its bit, or a new one, which held a zero
  by_cases hold : i < s.writePos
  · have hout : ¬ (s.writePos ≤ i ∧ i < s.writePos + count) := by omega
    rw [List.getElem_append_left (by simpa using hold), Bits.getElem_window, decide_eq_false hout]
    simp
  · have hin : s.writePos ≤ i ∧ i < s.writePos + count := by omega
    have hidx : s.writePos + count - 1 - i = count - 1 - (i - s.writePos) := by omega
    rw [List.getElem_append_right (by simpa using hold), Bits.getElem_ofNat,
      hs.unwritten i hin.1, decide_eq_true hin, hidx]
    simp

/-- A write that goes through has appended the word of the number. -/
theorem appends_of_writeBits {s s' : BitStream} (hs : s.WellFormed) {value : UInt32} {count : Nat}
    (h : s.writeBits value count = (.ok (), s')) :
    Appends s (Bits.ofNat count value.toNat) s' ∧ count ≤ maxTransferBits := by
  by_cases hc : count ≤ maxTransferBits
  · by_cases hroom : s.writePos + count ≤ s.capacityBits
    · rw [writeBits_of_le hc hroom] at h
      cases h
      exact ⟨appends_deposit hs hc hroom value, hc⟩
    · rw [writeBits_of_capacity_lt hc (by omega)] at h
      cases h
  · rw [writeBits_of_lt (by omega)] at h
    cases h

/-- A write goes through if it is narrow enough and there is room. -/
theorem exists_writeBits {s : BitStream} (hs : s.WellFormed) (value : UInt32) {count : Nat}
    (hc : count ≤ maxTransferBits) (hroom : s.writePos + count ≤ s.capacityBits) :
    ∃ s', s.writeBits value count = (.ok (), s') ∧
      Appends s (Bits.ofNat count value.toNat) s' :=
  ⟨_, writeBits_of_le hc hroom, appends_deposit hs hc hroom value⟩

/-- A write that fails changes nothing. -/
theorem eq_of_writeBits_error {s s' : BitStream} {value : UInt32} {count : Nat} {e : WireError}
    (h : s.writeBits value count = (.error e, s')) : s' = s := by
  by_cases hc : count ≤ maxTransferBits
  · by_cases hroom : s.writePos + count ≤ s.capacityBits
    · rw [writeBits_of_le hc hroom] at h
      cases h
    · rw [writeBits_of_capacity_lt hc (by omega)] at h
      exact (Prod.mk.inj h).2.symm
  · rw [writeBits_of_lt (by omega)] at h
    exact (Prod.mk.inj h).2.symm

/-! ### Reading -/

/-- The stream with the read position moved on by `n`. -/
def advance (s : BitStream) (n : Nat) : BitStream := { s with readPos := s.readPos + n }

@[simp] theorem advance_zero (s : BitStream) : s.advance 0 = s := rfl

@[simp] theorem advance_advance (s : BitStream) (m n : Nat) :
    (s.advance m).advance n = s.advance (m + n) := by
  simp [advance, Nat.add_assoc]

theorem advance_inj {s : BitStream} {m n : Nat} : s.advance m = s.advance n ↔ m = n := by
  simp [advance]

theorem remaining_advance (s : BitStream) (n : Nat) :
    (s.advance n).remaining = s.remaining - n := Nat.sub_add_eq ..

@[simp] theorem maxTextBytes_advance (s : BitStream) (n : Nat) :
    (s.advance n).maxTextBytes = s.maxTextBytes := rfl

@[simp] theorem unread_advance (s : BitStream) (n : Nat) :
    (s.advance n).unread = s.unread.drop n := by
  simp [advance, unread, bits, List.drop_drop]

/-- `s'` is `s` with the bits `w`, which stand first among the unread ones, taken off. -/
structure Takes (s : BitStream) (w : List Bool) (s' : BitStream) : Prop where
  /-- Nothing but the read position moves, and it moves by as many bits. -/
  eq_advance : s' = s.advance w.length
  /-- The bits `w` come first and the rest is left. -/
  unread_eq : s.unread = w ++ s'.unread

namespace Takes

variable {s s' s'' : BitStream} {v w : List Bool}

theorem refl (s : BitStream) : Takes s [] s := ⟨rfl, rfl⟩

theorem trans (h : Takes s v s') (h' : Takes s' w s'') : Takes s (v ++ w) s'' where
  eq_advance := by rw [h'.eq_advance, h.eq_advance, advance_advance, List.length_append]
  unread_eq := by rw [h.unread_eq, h'.unread_eq, List.append_assoc]

theorem wellFormed (h : Takes s w s') (hs : s.WellFormed) : s'.WellFormed := by
  have hlen : w.length ≤ s.remaining := by
    rw [← hs.length_unread, h.unread_eq, List.length_append]
    omega
  have hread := hs.readPos_le
  rw [remaining] at hlen
  rw [h.eq_advance]
  exact { hs with readPos_le := by simp only [advance]; omega }

theorem maxTextBytes_eq (h : Takes s w s') : s'.maxTextBytes = s.maxTextBytes := by
  rw [h.eq_advance, maxTextBytes_advance]

end Takes

/-- Bits that stand first among the unread ones can be taken. -/
theorem takes_advance {s : BitStream} {w rest : List Bool} (h : s.unread = w ++ rest) :
    Takes s w (s.advance w.length) :=
  ⟨rfl, by rw [unread_advance, h, List.drop_left]⟩

/-- What is left after bits that stood first among the unread ones. -/
theorem WellFormed.advance {s : BitStream} (hs : s.WellFormed) {w rest : List Bool} {n : Nat}
    (hn : w.length = n) (h : s.unread = w ++ rest) :
    (s.advance n).WellFormed ∧ (s.advance n).unread = rest := by
  subst hn
  refine ⟨(takes_advance h).wellFormed hs, ?_⟩
  rw [unread_advance, h, List.drop_left]

/-- The number ahead has no bits outside its width. -/
theorem toNat_peek_lt (s : BitStream) {count : Nat} (hc : count ≤ maxTransferBits) :
    (s.peek count).toNat < 2 ^ count := by
  refine Nat.lt_pow_two_of_testBit _ ?_
  intro i hi
  rw [peek, pieces, Bits.testBit_foldl_extract (Nat.le_refl _) hc, if_neg (by omega)]
  simp

/-- The number ahead is the one whose word comes first among the unread bits. -/
theorem ofNat_peek {s : BitStream} (hs : s.WellFormed) {count : Nat}
    (hc : count ≤ maxTransferBits) (hr : count ≤ s.remaining) :
    Bits.ofNat count (s.peek count).toNat = s.unread.take count := by
  have hread := hs.readPos_le
  rw [remaining] at hr
  have hlen : (s.unread.take count).length = count := by
    rw [List.length_take, hs.length_unread, remaining]
    omega
  refine ((Bits.eq_ofNat_iff hlen).2 ?_).symm
  intro i h
  have hi : i < count := by rwa [hlen] at h
  have hidx : s.readPos + count - 1 - (count - 1 - i) = 0 + (s.readPos + i) := by omega
  rw [peek, pieces, Bits.testBit_foldl_extract (Nat.le_refl _) hc, if_pos (by omega), hidx]
  simp [unread, hs.bits_eq]

theorem toNat_peek {s : BitStream} (hs : s.WellFormed) {count : Nat}
    (hc : count ≤ maxTransferBits) (hr : count ≤ s.remaining) :
    (s.peek count).toNat = Bits.toNat (s.unread.take count) := by
  rw [← ofNat_peek hs hc hr, Bits.toNat_ofNat, Nat.mod_eq_of_lt (toNat_peek_lt s hc)]

/-- A read that goes through has taken the word of the number it gives. -/
theorem takes_of_readBits {s s' : BitStream} (hs : s.WellFormed) {count : Nat} {word : UInt32}
    (h : s.readBits count = (.ok word, s')) :
    Takes s (Bits.ofNat count word.toNat) s' := by
  by_cases hc : count ≤ maxTransferBits
  · by_cases hr : count ≤ s.remaining
    · rw [readBits_of_le hc hr] at h
      cases h
      refine ⟨by simp [advance], ?_⟩
      rw [ofNat_peek hs hc hr]
      exact ((List.take_append_drop count s.unread).symm).trans
        (by rw [← unread_advance]; rfl)
    · rw [readBits_of_remaining_lt hc (by omega)] at h
      cases h
  · rw [readBits_of_lt (by omega)] at h
    cases h

/-- A read that fails changes nothing. -/
theorem eq_of_readBits_error {s s' : BitStream} {count : Nat} {e : WireError}
    (h : s.readBits count = (.error e, s')) : s' = s := by
  by_cases hc : count ≤ maxTransferBits
  · by_cases hr : count ≤ s.remaining
    · rw [readBits_of_le hc hr] at h
      cases h
    · rw [readBits_of_remaining_lt hc (by omega)] at h
      exact (Prod.mk.inj h).2.symm
  · rw [readBits_of_lt (by omega)] at h
    exact (Prod.mk.inj h).2.symm

/-- A read that goes through takes bits that are there, and nothing else changes. -/
theorem eq_advance_of_readBits {s s' : BitStream} {count : Nat} {word : UInt32}
    (h : s.readBits count = (.ok word, s')) : s' = s.advance count ∧ count ≤ s.remaining := by
  by_cases hc : count ≤ maxTransferBits
  · by_cases hr : count ≤ s.remaining
    · rw [readBits_of_le hc hr] at h
      cases h
      exact ⟨rfl, hr⟩
    · rw [readBits_of_remaining_lt hc (by omega)] at h
      cases h
  · rw [readBits_of_lt (by omega)] at h
    cases h

/-- A read gives a number of the width asked for. -/
theorem toNat_lt_of_readBits {s s' : BitStream} {count : Nat} {word : UInt32}
    (h : s.readBits count = (.ok word, s')) : word.toNat < 2 ^ count := by
  by_cases hc : count ≤ maxTransferBits
  · by_cases hr : count ≤ s.remaining
    · rw [readBits_of_le hc hr] at h
      cases h
      exact toNat_peek_lt s hc
    · rw [readBits_of_remaining_lt hc (by omega)] at h
      cases h
  · rw [readBits_of_lt (by omega)] at h
    cases h

/-- A number is read back from its word, without the bits outside its width. -/
theorem readBits_of_unread {s : BitStream} (hs : s.WellFormed) {count n : Nat}
    (hc : count ≤ maxTransferBits) {rest : List Bool}
    (h : s.unread = Bits.ofNat count n ++ rest) :
    s.readBits count = (.ok (UInt32.ofNat (n % 2 ^ count)), s.advance count) := by
  have hr : count ≤ s.remaining := by
    rw [← hs.length_unread, h, List.length_append, Bits.length_ofNat]
    omega
  have hword : Bits.ofNat count (s.peek count).toNat = Bits.ofNat count n := by
    rw [ofNat_peek hs hc hr, h, List.take_left' (Bits.length_ofNat ..)]
  have hnum : (s.peek count).toNat = n % 2 ^ count := by
    have heq := congrArg Bits.toNat hword
    rwa [Bits.toNat_ofNat, Bits.toNat_ofNat, Nat.mod_eq_of_lt (toNat_peek_lt s hc)] at heq
  rw [readBits_of_le hc hr, ← hnum, UInt32.ofNat_toNat]
  rfl

end WireTree.BitStream
