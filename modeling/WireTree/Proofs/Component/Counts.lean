/-
**The number of elements on the wire.**

In front of its elements an array has a number, as far beyond the fewest as its bits say.  The bits
have room for more than the numbers between the bounds; and where the fewest are many, the largest
distances lead past the largest signed integer, and the number comes out negative and is taken for
zero.

Neither is ever taken for a number of elements that is permitted.  A number past the most is past
them however it comes out: either it is told as it is, or it is told as zero, and zero is below the
fewest wherever a distance can lead so far.  So the number is out of bounds exactly if the bits
stand for more than the distance between the bounds, and otherwise it is the fewest and as many
more as the bits say, and that many copies of the prototype are read in turn.

Main results:

* `WireTree.ArrayOf.Consistent.admits_announced` — which numbers are permitted;
* `WireTree.Kind.read_array_eq_ok_iff_of_count`, `WireTree.Kind.read_array_eq_error_iff_of_count` —
  reading the elements once their number is known;
* `WireTree.read_array_by_count` — **reading an array**.
-/

import WireTree.Proofs.Component.InTurn

set_option relaxedAutoImplicit false
set_option autoImplicit false

namespace WireTree

variable {a : ArrayField} {s s₁ : BitStream}

/-! ### The number that is announced -/

namespace ArrayOf

/-- The number of elements that comes first in the stream. -/
theorem readCount_of_le (h : a.Consistent) (hs : s.WellFormed)
    (hbits : a.countField.width ≤ s.remaining) : a.readCount s =
      (.ok (a.announced (Bits.toNat (s.unread.take a.countField.width))),
        s.advance a.countField.width) := by
  have hwidth : a.countField.width ≤ maxTransferBits := Nat.le_trans h.width_le (by decide)
  have hcount := h.toNat_ofOffset (s.toNat_peek_lt hwidth)
  rw [BitStream.toNat_peek hs hwidth hbits] at hcount
  rw [readCount, BitSource.readBits_stream, BitStream.readBits_of_le hwidth hbits]
  exact Prod.ext (congrArg Except.ok hcount) rfl

/-- The number that is announced is permitted exactly if the distance from the fewest is no longer
than that between the bounds. -/
theorem Consistent.admits_announced (h : a.Consistent) {offset : Nat}
    (hoffset : offset < 2 ^ a.countField.width) :
    a.admits (a.announced offset) = true ↔ offset ≤ a.maxCount - a.minCount := by
  have hle := h.min_le_max
  have hmax := h.max_lt
  have hpow : 2 ^ a.countField.width ≤ 2 ^ 31 := Nat.pow_le_pow_right (by omega) h.width_le
  rw [admits_iff, announced]
  -- where the number comes out as zero, the fewest are more than none
  split <;> omega

theorem Consistent.announced_of_le (h : a.Consistent) {offset : Nat}
    (hoffset : offset ≤ a.maxCount - a.minCount) : a.announced offset = a.minCount + offset := by
  have hle := h.min_le_max
  have hmax := h.max_lt
  exact if_pos (by omega)

end ArrayOf

/-! ### The elements -/

/-- Fields that have been read are as many as before. -/
theorem ReadInTurn.length_eq {marks : List Bool} {cs cs' : List Component} {s' : BitStream}
    (h : ReadInTurn marks cs s cs' s') : cs'.length = cs.length := by
  obtain ⟨-, n, hread⟩ := readInTurn_iff.1 h
  have hlen := Kind.length_readPresent marks cs s
  rwa [hread] at hlen

namespace Kind

/-- Once their number is known, the elements are read like a list of copies of the prototype. -/
theorem read_array_of_count {count : Nat} (hcount : a.readCount s = (.ok count, s₁))
    (hadm : a.admits count = true) : (array a).read s =
      match readPresent (List.replicate count true) (List.replicate count a.prototype) s₁ with
      | (.error e, _, s) => (.error e, array a, s)
      | (.ok n, elements, s) =>
        (.ok (a.countField.width + n), array (a.withElements elements), s) := by
  have hall := readAll_eq (List.replicate count a.prototype) s₁
  rw [List.length_replicate] at hall
  rw [read_array, hcount, ← hall]
  simp only [hadm, if_true, ArrayOf.readCopies_eq]
  rcases readAll (List.replicate count a.prototype) s₁ with ⟨_ | n, elements, s₂⟩ <;> rfl

theorem read_array_of_not_admits {count : Nat} (hcount : a.readCount s = (.ok count, s₁))
    (hadm : ¬ a.admits count = true) :
    (array a).read s = (.error (a.countOutOfRange count), array a, s₁) := by
  rw [read_array, hcount]
  exact if_neg hadm

/-- The read goes through exactly if the copies are read in turn. -/
theorem read_array_eq_ok_iff_of_count (hk : (array a).WellFormed) (hs : s.WellFormed) {count : Nat}
    (hcount : a.readCount s = (.ok count, s₁)) (hadm : a.admits count = true) {n : Nat} {k' : Kind}
    {s' : BitStream} : (array a).read s = (.ok n, k', s') ↔
      ∃ elements,
        ReadInTurn (List.replicate count true) (List.replicate count a.prototype) s₁ elements s' ∧
        k' = array (a.withElements elements) ∧ (a.withElements elements).len = count ∧
        s' = s.advance n := by
  have hread := read_array_of_count hcount hadm
  constructor
  · intro h
    have hadvance := eq_advance_of_read hk hs h
    rw [hread] at h
    rcases hr : readPresent (List.replicate count true) (List.replicate count a.prototype) s₁ with
      ⟨_ | m, elements, s₂⟩ <;> rw [hr] at h <;> cases h
    have hturn := readInTurn_iff.2 ⟨by simp, m, hr⟩
    exact ⟨elements, hturn, rfl, hturn.length_eq.trans (List.length_replicate ..), hadvance⟩
  · rintro ⟨elements, hturn, rfl, -, hadvance⟩
    obtain ⟨-, m, hr⟩ := readInTurn_iff.1 hturn
    rw [hr] at hread
    -- the number told is the distance that the stream has moved
    have hmoved := eq_advance_of_read hk hs hread
    rw [hadvance, BitStream.advance_inj] at hmoved
    rw [hread, hmoved]

/-- It fails exactly if reading the copies in turn fails at one of them. -/
theorem read_array_eq_error_iff_of_count {count : Nat} (hcount : a.readCount s = (.ok count, s₁))
    (hadm : a.admits count = true) {e : WireError} {k' : Kind} {s' : BitStream} :
    (array a).read s = (.error e, k', s') ↔
      (∃ i left, FailsAt (List.replicate count true) (List.replicate count a.prototype) s₁ e i left
        s') ∧ k' = array a := by
  rw [read_array_of_count hcount hadm]
  constructor
  · intro h
    rcases hr : readPresent (List.replicate count true) (List.replicate count a.prototype) s₁ with
      ⟨_ | m, elements, s₂⟩ <;> rw [hr] at h <;> cases h
    obtain ⟨i, hfail⟩ := exists_failsAt_iff.2 hr
    exact ⟨⟨i, elements, hfail⟩, rfl⟩
  · rintro ⟨⟨i, left, hfail⟩, rfl⟩
    rw [exists_failsAt_iff.1 ⟨i, hfail⟩]

end Kind

/-- **Reading an array.**  Let the bits for the number of elements be there, and let them stand for
some distance from the fewest.  If it is longer than the distance between the bounds, the read fails
with the number as it comes out, takes just these bits and leaves the array as it was.  Otherwise as
many copies of the prototype are read, in turn, as the fewest and the distance make; the read goes
through exactly if they all do, and then the array has that many elements and these. -/
theorem read_array_by_count (ha : (Kind.array a).Reachable) (hs : s.Reachable)
    (hbits : bitsForSpan (Int32.ofNat a.minCount) (Int32.ofNat a.maxCount) ≤ s.remaining) :
    let width := bitsForSpan (Int32.ofNat a.minCount) (Int32.ofNat a.maxCount)
    let offset := Bits.toNat (s.unread.take width)
    (a.minCount ≤ a.maxCount ∧ a.maxCount < 2 ^ 31) ∧
    (a.maxCount - a.minCount < offset → (Kind.array a).read s =
      (.error (.countOutOfRange
        (if a.minCount + offset < 2 ^ 31 then a.minCount + offset else 0) a.minCount a.maxCount),
        .array a, s.advance width)) ∧
    (offset ≤ a.maxCount - a.minCount →
      let marks := List.replicate (a.minCount + offset) true
      let copies := List.replicate (a.minCount + offset) a.prototype
      (∀ n k' s', (Kind.array a).read s = (.ok n, k', s') ↔
        ∃ elements, ReadInTurn marks copies (s.advance width) elements s' ∧
          k' = .array (a.withElements elements) ∧
          (a.withElements elements).len = a.minCount + offset ∧ s' = s.advance n) ∧
      ∀ e k' s', (Kind.array a).read s = (.error e, k', s') ↔
        (∃ i left, FailsAt marks copies (s.advance width) e i left s') ∧ k' = .array a) := by
  have hwf := ha.wellFormed
  cases hwf with
  | array hcons _ _ =>
      rw [← hcons.width_eq] at hbits ⊢
      intro width offset
      have hcount := ArrayOf.readCount_of_le hcons hs.wellFormed hbits
      have hlen : (s.unread.take width).length ≤ width := List.length_take_le ..
      have hoffset : offset < 2 ^ width :=
        Nat.lt_of_lt_of_le (Bits.toNat_lt _) (Nat.pow_le_pow_right (by omega) hlen)
      have hadm := hcons.admits_announced hoffset
      refine ⟨⟨hcons.min_le_max, hcons.max_lt⟩, ?_, ?_⟩
      · intro hlong
        have hnot : ¬ a.admits (a.announced offset) = true := by
          rw [hadm]
          omega
        exact Kind.read_array_of_not_admits hcount hnot
      · intro hshort marks copies
        have hadm' := hadm.2 hshort
        rw [hcons.announced_of_le hshort] at hcount hadm'
        refine ⟨?_, ?_⟩
        · intro n k' s'
          exact Kind.read_array_eq_ok_iff_of_count ha.wellFormed hs.wellFormed hcount hadm'
        · intro e k' s'
          exact Kind.read_array_eq_error_iff_of_count hcount hadm'

/-- Two ones stand for three elements more than the fewest.  Within the three largest numbers of
elements that is one too many, and it comes out as none; between one and four it makes four. -/
theorem read_array_by_count_largest : ∃ (a b : ArrayField) (s : BitStream),
    (Kind.array a).Reachable ∧ (Kind.array b).Reachable ∧ s.Reachable ∧
    s.unread = List.replicate 8 true ∧
    (a.minCount = 2147483645 ∧ a.maxCount = 2147483647 ∧ (Kind.array a).read s =
      (.error (.countOutOfRange 0 2147483645 2147483647), .array a, s.advance 2)) ∧
    (b.minCount = 1 ∧ b.maxCount = 4 ∧ ∃ elements,
      ReadInTurn (List.replicate 4 true) (List.replicate 4 b.prototype) (s.advance 2) elements
        (s.advance 6) ∧
      (Kind.array b).read s = (.ok 6, .array (b.withElements elements), s.advance 6) ∧
      (b.withElements elements).len = 4) := by
  have hbool : (Kind.scalar (.bool false)).Reachable := .free trivial
  have ha : (Kind.array ⟨⟨none, .scalar (.bool false)⟩, 2147483645, 2147483647,
      ⟨0, 2147483645, 2147483647, none, by decide⟩, [], none⟩).Reachable :=
    .make hbool (show ArrayOf.make ⟨none, _⟩ 2147483645 2147483647 = _ from rfl)
  have hb : (Kind.array ⟨⟨none, .scalar (.bool false)⟩, 1, 4, ⟨0, 1, 4, none, by decide⟩, [],
      none⟩).Reachable := .make hbool (show ArrayOf.make ⟨none, _⟩ 1 4 = _ from rfl)
  have hs : (BitStream.Origin.received #[255]).stream.Reachable := .origin _
  obtain ⟨-, hlong, -⟩ := read_array_by_count ha hs (by decide)
  obtain ⟨-, -, hshort⟩ := read_array_by_count hb hs (by decide)
  obtain ⟨elements, hturn, hk, hlen, hadvance⟩ := ((hshort (by decide)).1 6 _ _).1 rfl
  refine ⟨_, _, _, ha, hb, hs, by decide, ⟨rfl, rfl, hlong (by decide)⟩, rfl, rfl, elements, ?_⟩
  rw [hadvance] at hturn
  refine ⟨hturn, ?_, hlen⟩
  rw [← hk]
  rfl

end WireTree
