/-
**Any integer between any bounds.**

Nothing keeps the value of a bounded integer within its bounds, and the distance between the
bounds may be too long for a signed integer.  The value is written all the same: what is on the
wire is the low bits of its distance from the lower bound, and what a reader with the same bounds
makes of them is the one integer whose distance has these bits and no others.

So the value that arrives is the value that was sent modulo a power of two, and it is the value
itself if that lies within the bounds; then its distance has no bits to lose.  The argument is
about distances modulo `2 ^ 32` throughout and never asks where the lower bound stands.

Main definitions:

* `WireTree.BoundedInt.arriving` — the value that a reader with the same bounds gets.

Main results:

* `WireTree.bitsForSpan_le_of_lt` — no smaller width has room for every distance;
* `WireTree.BoundedInt.eq_of_distance_lt` — integers that are near enough above the lower bound
  and agree modulo a power of two are equal;
* `WireTree.BoundedInt.read_of_unread` — what a reader makes of the bits;
* `WireTree.BoundedInt.transfers_modulo_width` — all of it together, and what other bounds do.
-/

import WireTree.Proofs.Component.Encoding
import WireTree.Proofs.Component.Operations

set_option relaxedAutoImplicit false
set_option autoImplicit false

namespace WireTree

/-! ### The least width -/

/-- A width with room for the distance between the bounds is no smaller than the one used. -/
theorem bitsForSpan_le_of_lt {lower upper : Int32} {k : Nat} (hle : lower ≤ upper)
    (h : upper.toInt - lower.toInt < 2 ^ k) : bitsForSpan lower upper ≤ k := by
  have horder := Int32.le_iff_toInt_le.1 hle
  refine bitLength_le_of_lt ((Int.toNat_lt (by omega)).2 ?_)
  exact_mod_cast h

/-- The width has room for the distance between the bounds. -/
theorem span_lt_two_pow_bitsForSpan {lower upper : Int32} (hle : lower ≤ upper) :
    upper.toInt - lower.toInt < 2 ^ bitsForSpan lower upper := by
  have horder := Int32.le_iff_toInt_le.1 hle
  have hlt : (upper.toInt - lower.toInt).toNat < 2 ^ bitsForSpan lower upper :=
    lt_two_pow_bitsForSpan (by omega)
  exact_mod_cast (Int.toNat_lt (by omega)).1 hlt

namespace BoundedInt

variable {r d : BoundedInt}

/-! ### Distances modulo a power of two -/

theorem two_pow_dvd {width : Nat} (h : width ≤ maxTransferBits) : (2 : Int) ^ width ∣ 2 ^ 32 := by
  exact_mod_cast Nat.pow_dvd_pow 2 h

/-- A distance modulo `2 ^ 32` that has no more than `width` bits is the distance modulo
`2 ^ width`. -/
theorem emod_eq_of_emod_lt {n : Int} {width : Nat} (hwidth : width ≤ maxTransferBits)
    (h : n % 2 ^ 32 < 2 ^ width) : n % 2 ^ 32 = n % 2 ^ width := by
  rw [← Int.emod_emod_of_dvd n (two_pow_dvd hwidth),
    Int.emod_eq_of_lt (Int.emod_nonneg n (by omega)) h]

/-- Two integers whose distances from a bound have no more than `width` bits are equal if they
agree modulo `2 ^ width`. -/
theorem eq_of_distance_lt {v v' lower : Int32} {width : Nat} (hwidth : width ≤ maxTransferBits)
    (h : (v.toInt - lower.toInt) % 2 ^ 32 < 2 ^ width)
    (h' : (v'.toInt - lower.toInt) % 2 ^ 32 < 2 ^ width)
    (hmod : v.toInt % 2 ^ width = v'.toInt % 2 ^ width) : v = v' := by
  have hdistance : (v.toInt - lower.toInt) % 2 ^ 32 = (v'.toInt - lower.toInt) % 2 ^ 32 := by
    rw [emod_eq_of_emod_lt hwidth h, emod_eq_of_emod_lt hwidth h',
      Int.emod_sub_cancel_right, hmod]
  -- so they agree modulo `2 ^ 32`, and then they are the same word
  have hword := (Int.emod_sub_cancel_right _).1 hdistance
  rw [← toNat_toUInt32_eq, ← toNat_toUInt32_eq] at hword
  have heq : v.toUInt32 = v'.toUInt32 := UInt32.toNat_inj.1 (by exact_mod_cast hword)
  rw [← v.toInt32_toUInt32, heq, v'.toInt32_toUInt32]

/-! ### The value that arrives -/

/-- The value that a reader with the same bounds gets: the one whose distance from the lower bound
is what is written of the distance of the value. -/
def arriving (r : BoundedInt) : Int32 :=
  (r.ofOffset (Cell.low ⟨r.offset, bitsForSpan r.lower r.upper⟩)).value

/-- The distance of the value that arrives. -/
theorem distance_arriving (r : BoundedInt) : (r.arriving.toInt - r.lower.toInt) % 2 ^ 32 =
    (r.value.toInt - r.lower.toInt) % 2 ^ bitsForSpan r.lower r.upper := by
  have hwidth := bitsForSpan_le r.lower r.upper
  have hpow : 2 ^ bitsForSpan r.lower r.upper ≤ 2 ^ 32 := Nat.pow_le_pow_right (by omega) hwidth
  have hlt := Nat.mod_lt r.offset.toNat (Nat.two_pow_pos (bitsForSpan r.lower r.upper))
  have hlow : (Cell.low ⟨r.offset, bitsForSpan r.lower r.upper⟩).toNat =
      r.offset.toNat % 2 ^ bitsForSpan r.lower r.upper := by
    rw [Cell.low, UInt32.toNat_ofNat']
    exact Nat.mod_eq_of_lt (Nat.lt_of_lt_of_le hlt hpow)
  rw [arriving, ← toNat_eq_of_ofOffset, hlow]
  push_cast
  rw [r.toNat_offset, Int.emod_emod_of_dvd _ (two_pow_dvd hwidth)]

theorem distance_arriving_lt (r : BoundedInt) :
    (r.arriving.toInt - r.lower.toInt) % 2 ^ 32 < 2 ^ bitsForSpan r.lower r.upper := by
  rw [r.distance_arriving]
  exact Int.emod_lt_of_pos _ (Int.pow_pos (by omega))

/-- The value that arrives is the value modulo a power of two. -/
theorem arriving_emod (r : BoundedInt) : r.arriving.toInt % 2 ^ bitsForSpan r.lower r.upper =
    r.value.toInt % 2 ^ bitsForSpan r.lower r.upper := by
  have hdistance := r.distance_arriving
  rw [emod_eq_of_emod_lt (bitsForSpan_le ..) r.distance_arriving_lt] at hdistance
  exact (Int.emod_sub_cancel_right _).1 hdistance

/-- A value within its bounds arrives as it is. -/
theorem arriving_of_inBounds (h : r.inBounds = true) : r.arriving = r.value := by
  have hlt : (r.value.toInt - r.lower.toInt) % 2 ^ 32 < 2 ^ bitsForSpan r.lower r.upper := by
    rw [← r.toNat_offset]
    exact_mod_cast toNat_offset_lt h
  exact eq_of_distance_lt (bitsForSpan_le ..) r.distance_arriving_lt hlt r.arriving_emod

/-! ### On the wire -/

/-- A reader with the same bounds takes the value that arrives, whatever value it had before. -/
theorem read_of_unread (hr : r.WellFormed) (hd : d.WellFormed) (hlower : d.lower = r.lower)
    (hupper : d.upper = r.upper) {t : BitStream} (ht : t.WellFormed) {rest : List Bool}
    (h : t.unread = (Scalar.bounded r).encode ++ rest) :
    (Scalar.bounded d).read t = (.ok (bitsForSpan r.lower r.upper),
      .bounded (d.set r.arriving), t.advance (bitsForSpan r.lower r.upper)) := by
  have hv : (Scalar.bounded r).WellFormed := hr
  have hwidth : d.width = bitsForSpan r.lower r.upper := by rw [hd.width_eq, hlower, hupper]
  have hread := BitStream.readWords_of_unread ht hv.width_le
    (h.trans (congrArg (· ++ rest) hv.allBits_cells.symm))
  simp only [Scalar.cells, List.map_cons, List.map_nil, Cell.totalWidth_cons,
    Cell.totalWidth_nil, Nat.add_zero, hr.width_eq] at hread
  rw [Scalar.read_of_ne_text (by simp [Scalar.variant])]
  simp only [Scalar.widths, Scalar.cells, List.map_cons, List.map_nil, hwidth, hread,
    Scalar.measure, Scalar.fill, arriving, ofOffset, set, hlower]

/-- Where there is no room nothing is written. -/
theorem write_of_capacity_lt (hr : r.WellFormed) {s : BitStream}
    (h : s.capacityBits < s.writePos + bitsForSpan r.lower r.upper) :
    (Scalar.bounded r).write s =
      (.error (.overflow (s.writePos + bitsForSpan r.lower r.upper) s.capacityBits), s) := by
  have hwrite : s.writeBits r.offset (bitsForSpan r.lower r.upper) = _ :=
    BitStream.writeBits_of_capacity_lt (bitsForSpan_le ..) h
  rw [Scalar.write_of_ne_text (by simp [Scalar.variant])]
  simp only [Scalar.cells, BitStream.writeCells, hr.width_eq, hwrite]

/-! ### Other bounds -/

/-- Bounds in order are taken over: the value stays and the width is that of the new bounds. -/
theorem exists_setBounds (r : BoundedInt) {lower upper : Int32} (h : lower ≤ upper) :
    ∃ r', r.setBounds lower upper = .ok r' ∧ r'.width = bitsForSpan lower upper ∧
      r'.lower = lower ∧ r'.upper = upper ∧ r'.value = r.value :=
  ⟨⟨r.value, lower, upper, none, h⟩, dif_pos h, rfl, rfl, rfl, rfl⟩

/-- Inverted bounds are refused. -/
theorem setBounds_of_lt (r : BoundedInt) {lower upper : Int32} (h : upper < lower) :
    r.setBounds lower upper = .error (.invertedBounds lower.toInt upper.toInt) :=
  dif_neg (Int32.not_le.2 h)

/-- On a component, bounds that are refused change nothing. -/
theorem run_setBounds (r : BoundedInt) (lower upper : Int32) :
    ((Operation.setBounds lower upper).edit.run (.scalar (.bounded r))).2 =
      .scalar (.bounded (orSame r (r.setBounds lower upper))) := rfl

/-! ### All together -/

/-- **Coding over all integers.**  The width for bounds is the least one with room for the
distance between them and never exceeds 32.  A bounded integer is written in that many bits,
whatever its value; whoever reads them within the same bounds gets the one integer whose distance
from the lower bound, modulo `2 ^ 32`, has no more bits and which agrees with the value modulo a
power of two, and within the bounds that is the value.  Other bounds change the width and not the
value; inverted ones are refused and change nothing. -/
theorem transfers_modulo_width {r : BoundedInt} (hr : r.Reachable) :
    let width := bitsForSpan r.lower r.upper
    (r.upper.toInt - r.lower.toInt < 2 ^ width ∧
      (∀ k, r.upper.toInt - r.lower.toInt < 2 ^ k → width ≤ k) ∧ width ≤ 32) ∧
    (∃ (w : List Bool) (v : Int32), w.length = width ∧
      (∀ s : BitStream, s.Reachable →
        (s.writePos + width ≤ s.capacityBits → ∃ s',
          (Kind.scalar (.bounded r)).write s = (.ok width, s') ∧ BitStream.Appends s w s') ∧
        (s.capacityBits < s.writePos + width → (Kind.scalar (.bounded r)).write s =
          (.error (.overflow (s.writePos + width) s.capacityBits), s))) ∧
      (∀ d : BoundedInt, d.Reachable → d.lower = r.lower → d.upper = r.upper →
        ∀ t : BitStream, t.Reachable → ∀ rest, t.unread = w ++ rest →
          (Kind.scalar (.bounded d)).read t =
            (.ok width, .scalar (.bounded (d.set v)), t.advance width)) ∧
      ((v.toInt - r.lower.toInt) % 2 ^ 32 < 2 ^ width ∧
        v.toInt % 2 ^ width = r.value.toInt % 2 ^ width ∧
        ∀ v' : Int32, (v'.toInt - r.lower.toInt) % 2 ^ 32 < 2 ^ width →
          v'.toInt % 2 ^ width = r.value.toInt % 2 ^ width → v' = v) ∧
      (r.inBounds = true → v = r.value)) ∧
    ∀ lower upper : Int32,
      (lower ≤ upper → ∃ r', r.setBounds lower upper = .ok r' ∧
        ((Operation.setBounds lower upper).edit.run (.scalar (.bounded r))).2 =
          .scalar (.bounded r') ∧
        (Kind.scalar (.bounded r')).measure.1 = bitsForSpan lower upper ∧
        r'.lower = lower ∧ r'.upper = upper ∧ r'.value = r.value) ∧
      (upper < lower →
        r.setBounds lower upper = .error (.invertedBounds lower.toInt upper.toInt) ∧
        ((Operation.setBounds lower upper).edit.run (.scalar (.bounded r))).2 =
          .scalar (.bounded r)) := by
  intro width
  have hwf := hr.wellFormed
  have hv : (Scalar.bounded r).WellFormed := hwf
  have hwidth : width ≤ maxTransferBits := bitsForSpan_le ..
  refine ⟨⟨span_lt_two_pow_bitsForSpan r.lower_le_upper,
    fun k => bitsForSpan_le_of_lt r.lower_le_upper, hwidth⟩,
    ⟨(Scalar.bounded r).encode, r.arriving, Scalar.length_encode _, ?_, ?_, ?_,
      arriving_of_inBounds⟩, ?_⟩
  · intro s hs
    refine ⟨?_, write_of_capacity_lt hwf⟩
    intro hroom
    obtain ⟨s', hwrite⟩ := Scalar.exists_write (v := .bounded r) hs.wellFormed hv trivial hroom
    obtain ⟨-, happ, -⟩ := Scalar.appends_of_write hs.wellFormed hv hwrite
    exact ⟨s', hwrite, happ⟩
  · intro d hd hlower hupper t ht rest h
    rw [Kind.read, read_of_unread hwf hd.wellFormed hlower hupper ht.wellFormed h]
  · refine ⟨r.distance_arriving_lt, r.arriving_emod, ?_⟩
    intro v' hv' hmod
    exact eq_of_distance_lt hwidth hv' r.distance_arriving_lt (hmod.trans r.arriving_emod.symm)
  · intro lower upper
    rw [run_setBounds]
    constructor
    · intro hle
      obtain ⟨r', hset, hnew⟩ := r.exists_setBounds hle
      exact ⟨r', hset, by rw [hset, orSame], hnew⟩
    · intro hlt
      have hset := r.setBounds_of_lt hlt
      exact ⟨hset, by rw [hset, orSame]⟩

/-- Within the three largest integers, zero arrives as the smallest integer: two bits are written
of its distance, and the number three that they stand for leads past the largest integer. -/
theorem transfers_modulo_width_past_largest : ∃ (r : BoundedInt) (w : List Bool), r.Reachable ∧
    r.lower = 2147483645 ∧ r.upper = Int32.maxValue ∧ r.value = 0 ∧ w.length = 2 ∧
    (∀ s : BitStream, s.Reachable → s.writePos + 2 ≤ s.capacityBits →
      ∃ s', (Kind.scalar (.bounded r)).write s = (.ok 2, s') ∧ BitStream.Appends s w s') ∧
    ∀ t : BitStream, t.Reachable → ∀ rest, t.unread = w ++ rest →
      (Kind.scalar (.bounded r)).read t =
        (.ok 2, .scalar (.bounded (r.set Int32.minValue)), t.advance 2) := by
  have hr : BoundedInt.Reachable ⟨0, 2147483645, Int32.maxValue, none, by decide⟩ :=
    .make (show BoundedInt.make 0 2147483645 Int32.maxValue = _ from rfl)
  obtain ⟨-, ⟨w, v, hlen, hwrite, hread, ⟨-, -, hunique⟩, -⟩, -⟩ := transfers_modulo_width hr
  have hv : Int32.minValue = v := hunique _ (by decide) (by decide)
  subst hv
  exact ⟨_, w, hr, rfl, rfl, rfl, hlen, fun s hs => (hwrite s hs).1, hread _ hr rfl rfl⟩

end BoundedInt

end WireTree
