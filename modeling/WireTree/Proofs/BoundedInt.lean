/-
**Integers between two bounds and their distances.**

A width that is remembered is the width for the bounds; whoever changes the bounds forgets it.
The width leaves room for every distance between the bounds, so a value within its bounds is
recovered from the low bits of its distance, also when the distance does not fit a signed integer.

Main definitions:

* `WireTree.BoundedInt.WellFormed` — the width remembered is right;
* `WireTree.BoundedInt.Reachable` — the integers that come up;
* `WireTree.BoundedInt.forget` — the integer without a width remembered.

Main results:

* `WireTree.BoundedInt.Reachable.wellFormed` — every integer that comes up is well-formed;
* `WireTree.bitsForSpan_le`, `WireTree.lt_two_pow_bitsForSpan` — the bounds on the width;
* `WireTree.BoundedInt.toNat_offset` — the distance, modulo `2 ^ 32`.
-/

import WireTree.BoundedInt
import WireTree.Proofs.BitStream.Queue

set_option relaxedAutoImplicit false
set_option autoImplicit false

namespace WireTree

/-! ### Widths -/

theorem lt_two_pow_bitLength (n : Nat) : n < 2 ^ bitLength n := by
  unfold bitLength
  split
  · rename_i h
    simp [h]
  · exact Nat.lt_log2_self

theorem bitLength_le_of_lt {n k : Nat} (h : n < 2 ^ k) : bitLength n ≤ k := by
  unfold bitLength
  split
  · exact Nat.zero_le k
  · rename_i hn
    exact (Nat.log2_lt hn).2 h

/-- No two bounds need more bits than a transfer moves. -/
theorem bitsForSpan_le (lower upper : Int32) : bitsForSpan lower upper ≤ maxTransferBits := by
  have hlower := lower.le_toInt
  have hupper := upper.toInt_lt
  have hspan : (upper.toInt - lower.toInt).toNat < 2 ^ 32 := by omega
  rw [bitsForSpan, maxTransferBits]
  exact bitLength_le_of_lt hspan

/-- Every distance up to that between the bounds has its bits. -/
theorem lt_two_pow_bitsForSpan {lower upper : Int32} {n : Nat}
    (h : (n : Int) ≤ upper.toInt - lower.toInt) : n < 2 ^ bitsForSpan lower upper :=
  Nat.lt_of_le_of_lt (by omega) (lt_two_pow_bitLength _)

namespace BoundedInt

/-! ### Well-formed integers -/

/-- A width that is remembered is the width for the bounds. -/
def WellFormed (r : BoundedInt) : Prop :=
  ∀ width, r.cachedBits = some width → width = bitsForSpan r.lower r.upper

variable {r r' : BoundedInt}

theorem WellFormed.width_eq (h : r.WellFormed) : r.width = bitsForSpan r.lower r.upper := by
  rw [width]
  cases hc : r.cachedBits with
  | none => rfl
  | some width => exact h width hc

theorem wellFormed_of_uncached (h : r.cachedBits = none) : r.WellFormed := by
  intro width hc
  rw [h] at hc
  cases hc

/-- What keeps the bounds and the width remembered keeps the integer well-formed. -/
theorem WellFormed.of_eq (h : r.WellFormed) (hlower : r'.lower = r.lower)
    (hupper : r'.upper = r.upper) (hcached : r'.cachedBits = r.cachedBits) : r'.WellFormed := by
  intro width hc
  rw [hlower, hupper]
  exact h width (hcached ▸ hc)

theorem WellFormed.remember (h : r.WellFormed) : r.remember.WellFormed := by
  intro width hc
  rw [← Option.some.inj hc, h.width_eq]
  rfl

theorem eq_of_make {value lower upper : Int32} (h : make value lower upper = .ok r) :
    r.value = value ∧ r.lower = lower ∧ r.upper = upper ∧ r.cachedBits = none := by
  unfold make at h
  split at h
  · cases h
    exact ⟨rfl, rfl, rfl, rfl⟩
  · cases h

theorem eq_of_setBounds {lower upper : Int32} (h : r.setBounds lower upper = .ok r') :
    r'.value = r.value ∧ r'.lower = lower ∧ r'.upper = upper ∧ r'.cachedBits = none := by
  unfold setBounds at h
  split at h
  · cases h
    exact ⟨rfl, rfl, rfl, rfl⟩
  · cases h

/-- The integers that come up: new ones, and what the operations leave. -/
inductive Reachable : BoundedInt → Prop
  | full : Reachable .full
  | make {value lower upper : Int32} {r : BoundedInt} :
      make value lower upper = .ok r → Reachable r
  | withBounds {lower upper : Int32} {r : BoundedInt} :
      withBounds lower upper = .ok r → Reachable r
  | set {r : BoundedInt} (value : Int32) : Reachable r → Reachable (r.set value)
  | setBounds {r r' : BoundedInt} {lower upper : Int32} :
      Reachable r → r.setBounds lower upper = .ok r' → Reachable r'
  | clear {r : BoundedInt} : Reachable r → Reachable r.clear
  | remember {r : BoundedInt} : Reachable r → Reachable r.remember
  | ofOffset {r : BoundedInt} (offset : UInt32) : Reachable r → Reachable (r.ofOffset offset)

/-- Every integer that comes up is well-formed. -/
theorem Reachable.wellFormed (h : r.Reachable) : r.WellFormed := by
  induction h with
  | full => exact wellFormed_of_uncached rfl
  | make hmake => exact wellFormed_of_uncached (eq_of_make hmake).2.2.2
  | @withBounds lower upper r hbounds =>
      rw [BoundedInt.withBounds] at hbounds
      rcases hmake : BoundedInt.make 0 lower upper with e | r₀ <;> rw [hmake] at hbounds
      · cases hbounds
      · cases hbounds
        exact wellFormed_of_uncached (eq_of_make hmake).2.2.2
  | set value _ ih => exact ih.of_eq rfl rfl rfl
  | setBounds _ hset _ => exact wellFormed_of_uncached (eq_of_setBounds hset).2.2.2
  | clear _ ih => exact ih.of_eq rfl rfl rfl
  | remember _ ih => exact ih.remember
  | ofOffset offset _ ih => exact ih.of_eq rfl rfl rfl

/-! ### Distances -/

/-- The integer without a width remembered. -/
def forget (r : BoundedInt) : BoundedInt := { r with cachedBits := none }

theorem forget_eq_forget_iff :
    r.forget = r'.forget ↔ r.value = r'.value ∧ r.lower = r'.lower ∧ r.upper = r'.upper := by
  simp [forget]

/-- The distance of the value from the lower bound, modulo `2 ^ 32`. -/
theorem toNat_offset (r : BoundedInt) :
    (r.offset.toNat : Int) = (r.value.toInt - r.lower.toInt) % 2 ^ 32 := by
  rw [offset, toNat_toUInt32_eq, Int32.toInt_sub,
    show (2 : Int) ^ 32 = ((2 ^ 32 : Nat) : Int) from rfl, Int.bmod_emod]

/-- The word that gives a value is its distance from the lower bound, modulo `2 ^ 32`. -/
theorem toNat_eq_of_ofOffset (r : BoundedInt) (word : UInt32) :
    (word.toNat : Int) = ((r.ofOffset word).value.toInt - r.lower.toInt) % 2 ^ 32 := by
  have hoffset := (r.ofOffset word).toNat_offset
  rwa [offset_ofOffset] at hoffset

/-- A value within its bounds has its whole distance in the bits that are written. -/
theorem toNat_offset_lt (h : r.inBounds = true) :
    r.offset.toNat < 2 ^ bitsForSpan r.lower r.upper := by
  simp only [inBounds, Bool.and_eq_true, decide_eq_true_eq, Int32.le_iff_toInt_le] at h
  have hlower := r.lower.le_toInt
  have hupper := r.upper.toInt_lt
  have hoffset := r.toNat_offset
  refine lt_two_pow_bitsForSpan ?_
  rw [hoffset, Int.emod_eq_of_lt (by omega) (by omega)]
  omega

/-- The value is recovered from its distance within the same bounds. -/
theorem forget_ofOffset_offset (hlower : r'.lower = r.lower) (hupper : r'.upper = r.upper) :
    (r'.ofOffset r.offset).forget = r.forget := by
  have hvalue : (r'.ofOffset r.offset).value = (r.ofOffset r.offset).value := by
    simp only [ofOffset, hlower]
  rw [ofOffset_offset] at hvalue
  exact forget_eq_forget_iff.2 ⟨hvalue, hlower, hupper⟩

end BoundedInt

end WireTree
