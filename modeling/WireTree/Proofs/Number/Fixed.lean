/-
**The arithmetic of floats loses nothing of a coordinate but what it must.**

A float becomes a coordinate by a product with 65536, and a coordinate becomes a float by a quotient
by 65536.  Each of them is rounded, but as it turns out there is nothing to round: a power of two
only shifts the exponent, unless it leads beyond the numbers, where the coordinate is at the end of
its range anyway.  So the first conversion is exact up to truncation, and the second one rounds only
where the integer becomes a float, which an integer of 24 bits does without loss.

Main results:

* `WireTree.Fixed.toInt_ofBinary32` — the coordinate of a finite float;
* `WireTree.Fixed.exists_toBinary32` — the pattern of the float of a coordinate;
* `WireTree.Fixed.conversions_are_exact` — **both conversions, and one after the other**.
-/

import Mathlib.Tactic.LinearCombination
import WireTree.Number.Fixed
import WireTree.Proofs.Number.Binary32

set_option relaxedAutoImplicit false
set_option autoImplicit false

namespace WireTree.Fixed

open Binary32

/-! ### From floats to coordinates -/

theorem value_unit : (Binary32.ofInt32 unit).value = .finite false (2 ^ 23) (-7) := by
  decide +kernel

variable {x : Binary32}

/-- The product with 65536 is exact, or infinite. -/
theorem exists_mul_unit {q : ℚ} (h : x.rat? = some q) : ∃ p,
    q * 2 ^ 16 = sign x.negative * (units p * least) ∧
    (x.mul (.ofInt32 unit)).pattern = min p infinityBits ∧
    (x.mul (.ofInt32 unit)).negative = x.negative := by
  obtain ⟨m, e, hvalue, hunits, rfl⟩ := exists_value_of_rat? h
  obtain ⟨p, hp⟩ := exists_units_mul x.pattern 16
  have hproduct : ((m * 2 ^ 23 : ℕ) : ℚ) / (1 : ℕ) * 2 ^ (e + -7) = units p * least := by
    have hseven : (2 : ℚ) ^ (-7 : ℤ) = 1 / 2 ^ 7 := by norm_num
    rw [hp, zpow_add₀ two_ne_zero, hseven]
    push_cast
    linear_combination (2 ^ 16 : ℚ) * hunits
  rw [mul_eq_ofRatio hvalue value_unit, Bool.bne_false]
  refine ⟨p, ?_, pattern_ofRatio Nat.one_pos hproduct, negative_ofRatio ..⟩
  rw [hunits, hp, Nat.cast_mul, Nat.cast_pow, Nat.cast_ofNat]
  ring

theorem units_infinityBits : units infinityBits = 2 ^ 128 * 2 ^ 149 := by decide +kernel

/-- The coordinate of a finite float. -/
theorem toInt_ofBinary32 {q : ℚ} (h : x.rat? = some q) : (ofBinary32 x).raw.toInt =
    max (-2 ^ 31) (min (2 ^ 31 - 1) (truncate (q * 2 ^ 16))) := by
  obtain ⟨p, hq, hpattern, hnegative⟩ := exists_mul_unit h
  obtain hlt | hge := Nat.lt_or_ge p infinityBits
  · rw [Nat.min_eq_left hlt.le] at hpattern
    refine toInt_toInt32 (rat?_eq_some_iff.2 ⟨hpattern.trans_lt hlt, ?_⟩)
    rw [hnegative, hpattern, hq]
  · -- the product is infinite, and the coordinate is at the end of its range either way
    rw [Nat.min_eq_right hge] at hpattern
    have hlarge : (2 ^ 128 * 2 ^ 149 : ℚ) ≤ units p := by
      exact_mod_cast units_infinityBits ▸ strictMono_units.monotone hge
    have hfloor : (2 ^ 31 : ℤ) ≤ ⌊units p * least⌋ := by
      rw [Int.le_floor]
      calc ((2 ^ 31 : ℤ) : ℚ) ≤ 2 ^ 128 := by norm_num
        _ = 2 ^ 128 * 2 ^ 149 * least := by rw [mul_assoc, two_pow_mul_least, mul_one]
        _ ≤ units p * least := mul_le_mul_of_nonneg_right hlarge least_pos.le
    rw [ofBinary32, toInt_toInt32_of_infinite (value_of_pattern_eq hpattern), hnegative, hq,
      truncate_sign_mul _ (mul_nonneg (Nat.cast_nonneg _) least_pos.le)]
    split
    · omega
    · omega

theorem toInt_ofBinary32_of_nan (h : x.value = .nan) : (ofBinary32 x).raw.toInt = 0 := by
  have hmul : x.mul (.ofInt32 unit) = notANumber := by
    rw [mul, h]
  rw [ofBinary32, hmul]
  rfl

theorem toInt_ofBinary32_of_infinite {s : Bool} (h : x.value = .infinite s) :
    (ofBinary32 x).raw.toInt = if s then -2 ^ 31 else 2 ^ 31 - 1 := by
  have hmul : x.mul (.ofInt32 unit) = infinity s := by
    rw [mul, h, value_unit]
    exact congrArg infinity (Bool.bne_false s)
  have hinfinity : (infinity s).value = .infinite s := by
    cases s <;> decide +kernel
  rw [ofBinary32, hmul, toInt_toInt32_of_infinite hinfinity]

/-- The numbers without a leading bit are too small to be told from zero. -/
theorem toInt_ofBinary32_of_lt (h : x.pattern < 2 ^ 23) : (ofBinary32 x).raw.toInt = 0 := by
  have hfin : x.pattern < infinityBits := Nat.lt_trans h (by decide)
  have hunits : units x.pattern = x.pattern := if_pos h
  have hpattern : (x.pattern : ℚ) ≤ 2 ^ 23 := by exact_mod_cast h.le
  have hleast := least_pos
  have hnonneg : (0 : ℚ) ≤ x.pattern * least * 2 ^ 16 := by positivity
  have hfloor : ⌊x.pattern * least * 2 ^ 16⌋ = 0 := by
    rw [Int.floor_eq_zero_iff]
    refine ⟨hnonneg, ?_⟩
    calc x.pattern * least * 2 ^ 16 ≤ 2 ^ 23 * least * 2 ^ 16 := by gcongr
      _ < 1 := by norm_num [least]
  rw [toInt_ofBinary32 (rat?_eq_some_iff.2 ⟨hfin, rfl⟩), hunits, mul_assoc,
    truncate_sign_mul _ hnonneg, hfloor]
  split
  · rfl
  · rfl

/-! ### From coordinates to floats -/

/-- An integer of 32 bits is rounded to a pattern from which a factor of 65536 can be taken. -/
theorem exists_units_of_near {a p : ℕ} (ha : a ≤ 2 ^ 31) (h : Near p (a * 2 ^ 149)) :
    p < infinityBits ∧ ∃ p', units p = units p' * 2 ^ 16 ∧ p % 2 = p' % 2 ∧ p' < infinityBits := by
  have hlast : units (157 * 2 ^ 23 + 2 ^ 23) = 2 ^ 31 * 2 ^ 149 := by decide +kernel
  have hone : units (126 * 2 ^ 23 + 2 ^ 23) = 2 ^ 149 := by decide +kernel
  have hle : p ≤ 157 * 2 ^ 23 + 2 ^ 23 := by
    refine h.le_of_le ?_
    rw [hlast]
    exact_mod_cast Nat.mul_le_mul_right (2 ^ 149) ha
  refine ⟨Nat.lt_of_le_of_lt hle (by decide), ?_⟩
  obtain rfl | hpos := Nat.eq_zero_or_pos a
  · have hzero : units 0 = 0 := rfl
    have hp : p = 0 := h.eq_of_units (by rw [hzero, Nat.cast_zero, zero_mul])
    exact ⟨0, by rw [hp, hzero, Nat.zero_mul], by rw [hp], by decide⟩
  · have hge : 126 * 2 ^ 23 + 2 ^ 23 ≤ p := by
      refine h.le_of_ge ?_
      rw [hone]
      exact_mod_cast Nat.le_mul_of_pos_left (2 ^ 149) hpos
    obtain ⟨p', rfl⟩ := Nat.exists_eq_add_of_le' (by omega : 16 * 2 ^ 23 ≤ p)
    refine ⟨p', units_add (by omega) 16, by omega, ?_⟩
    rw [infinityBits]
    omega

/-- The pattern of the float of a coordinate: the integer is rounded, and the quotient is not. -/
theorem exists_toBinary32 (v : Fixed) : ∃ p p', Near p (v.raw.toInt.natAbs * 2 ^ 149) ∧
    units p = units p' * 2 ^ 16 ∧ p % 2 = p' % 2 ∧ p' < infinityBits ∧
    v.toBinary32.pattern = p' ∧ v.toBinary32.negative = decide (v.raw.toInt < 0) := by
  have hle : v.raw.toInt.natAbs ≤ 2 ^ 31 := by
    have hge := v.raw.le_toInt
    have hlt := v.raw.toInt_lt
    omega
  obtain ⟨p, u, hu, -, hnear, hp⟩ :=
    exists_near_ofRatio (decide (v.raw.toInt < 0)) v.raw.toInt.natAbs Nat.one_pos 0
  have hscaled : u = v.raw.toInt.natAbs * 2 ^ 149 := by
    rw [Nat.cast_one, div_one, zpow_zero, mul_one] at hu
    linear_combination (-u) * two_pow_mul_least - (2 : ℚ) ^ 149 * hu
  rw [hscaled] at hnear
  obtain ⟨hfin, p', hunits, heven, hfin'⟩ := exists_units_of_near hle hnear
  rw [Nat.min_eq_left hfin.le] at hp
  obtain ⟨m, e, hvalue, hm, -⟩ :=
    exists_value_of_rat? (rat?_eq_some_iff.2 ⟨hp.trans_lt hfin, rfl⟩)
  rw [negative_ofRatio] at hvalue
  rw [hp, hunits] at hm
  have hquotient : (m : ℚ) / (2 ^ 23 : ℕ) * 2 ^ (e - -7) = units p' * least := by
    have hseven : (2 : ℚ) ^ (-7 : ℤ) = 1 / 2 ^ 7 := by norm_num
    rw [zpow_sub₀ two_ne_zero, hseven]
    push_cast at hm ⊢
    linear_combination (1 / 2 ^ 16 : ℚ) * hm
  have hdiv : v.toBinary32 = ofRatio (decide (v.raw.toInt < 0)) m (2 ^ 23) (e - -7) := by
    have h := div_eq_ofRatio hvalue value_unit (Nat.two_pow_pos 23).ne'
    rwa [Bool.bne_false] at h
  refine ⟨p, p', hnear, hunits, heven, hfin', ?_, ?_⟩
  · rw [hdiv, pattern_ofRatio (Nat.two_pow_pos 23) hquotient, Nat.min_eq_left hfin'.le]
  · rw [hdiv, negative_ofRatio]

theorem sign_mul_natAbs (n : ℤ) : sign (decide (n < 0)) * (n.natAbs : ℚ) = n := by
  obtain hlt | hge := lt_or_ge n 0
  · have habs : (n.natAbs : ℤ) = -n := by omega
    rw [decide_eq_true hlt, sign, if_pos rfl, neg_one_mul, ← Int.cast_natCast, habs, Int.cast_neg,
      neg_neg]
  · have habs : (n.natAbs : ℤ) = n := by omega
    rw [decide_eq_false (not_lt.2 hge), sign, if_neg Bool.false_ne_true, one_mul,
      ← Int.cast_natCast, habs]

/-- The float of a coordinate is the nearest to it. -/
theorem isNearest_toBinary32 (v : Fixed) : v.toBinary32.IsNearest (v.raw.toInt / 2 ^ 16) := by
  obtain ⟨p, p', hnear, hunits, heven, hfin, hp, hnegative⟩ := v.exists_toBinary32
  have hsplit : (v.raw.toInt.natAbs * 2 ^ 149 : ℚ) =
      v.raw.toInt.natAbs * 2 ^ 133 * 2 ^ 16 := by ring
  rw [hsplit] at hnear
  have h := isNearest_of_near (by positivity) (hp.trans_lt hfin) (hp ▸ hnear.of_mul hunits heven)
  rw [hnegative] at h
  convert h using 1
  rw [← sign_mul_natAbs v.raw.toInt]
  linear_combination
    (-(sign (decide (v.raw.toInt < 0)) * v.raw.toInt.natAbs) / 2 ^ 16) * two_pow_mul_least

/-! ### There and back again -/

/-- The coordinate that comes back is the integer as it was rounded to become a float. -/
theorem exists_ofBinary32_toBinary32 (v : Fixed) : ∃ p, Near p (v.raw.toInt.natAbs * 2 ^ 149) ∧
    (ofBinary32 v.toBinary32).raw.toInt = max (-2 ^ 31) (min (2 ^ 31 - 1)
      (if v.raw.toInt < 0 then -⌊units p * least⌋ else ⌊units p * least⌋)) := by
  obtain ⟨p, p', hnear, hunits, -, hfin, hp, hnegative⟩ := v.exists_toBinary32
  have hscaled : sign (decide (v.raw.toInt < 0)) * (units p' * least) * 2 ^ 16 =
      sign (decide (v.raw.toInt < 0)) * (units p * least) := by
    rw [hunits]
    push_cast
    ring
  refine ⟨p, hnear, ?_⟩
  rw [toInt_ofBinary32 (rat?_eq_some_iff.2 ⟨hp.trans_lt hfin, rfl⟩), hp, hnegative, hscaled,
    truncate_sign_mul _ (mul_nonneg (Nat.cast_nonneg _) least_pos.le)]
  simp only [decide_eq_true_eq]

/-- Integers of 24 bits come back. -/
theorem ofBinary32_toBinary32 {v : Fixed} (h : |v.raw.toInt| ≤ 2 ^ 24) :
    ofBinary32 v.toBinary32 = v := by
  obtain ⟨hge, hle⟩ := abs_le.1 h
  obtain ⟨p, hnear, hback⟩ := v.exists_ofBinary32_toBinary32
  obtain ⟨p', hp'⟩ := exists_units (by omega : v.raw.toInt.natAbs ≤ 2 ^ 24) 149
  obtain rfl : p = p' := hnear.eq_of_units (by rw [hp']; push_cast; rfl)
  have hfloor : ⌊units p * least⌋ = v.raw.toInt.natAbs := by
    rw [hp', Nat.cast_mul, Nat.cast_pow, Nat.cast_ofNat, mul_assoc, two_pow_mul_least, mul_one,
      Int.floor_natCast]
  have hraw : (ofBinary32 v.toBinary32).raw = v.raw := by
    refine Int32.toInt_inj.1 ?_
    rw [hback, hfloor]
    by_cases hneg : v.raw.toInt < 0
    · rw [if_pos hneg]
      omega
    · rw [if_neg hneg]
      omega
  rcases v with ⟨raw⟩
  exact congrArg mk hraw

/-- An integer of 32 bits is at most 64 away from where it is rounded to. -/
theorem abs_floor_sub_le_of_near {a p : ℕ} (ha : a ≤ 2 ^ 31) (h : Near p (a * 2 ^ 149)) :
    |⌊units p * least⌋ - (a : ℤ)| ≤ 64 := by
  -- the nearest multiple of 128 has a pattern
  obtain ⟨p', hp'⟩ := exists_units (by omega : (a + 64) / 128 ≤ 2 ^ 24) (7 + 149)
  have hmultiple : |((128 * ((a + 64) / 128) : ℕ) : ℚ) - a| ≤ 64 := by
    have hle : |((128 * ((a + 64) / 128) : ℕ) : ℤ) - a| ≤ 64 := by
      rw [abs_le]
      omega
    exact_mod_cast hle
  have hunits : units p' * least = (128 * ((a + 64) / 128) : ℕ) := by
    rw [hp', Nat.pow_add]
    push_cast
    linear_combination (2 ^ 7 * ((a + 64) / 128 : ℕ) : ℚ) * two_pow_mul_least
  have hdist (b : ℚ) : |b * least - a| = |b - a * 2 ^ 149| * least := by
    have heq : b * least - a = (b - a * 2 ^ 149) * least := by
      linear_combination (a : ℚ) * two_pow_mul_least
    rw [heq, abs_mul, abs_of_pos least_pos]
  have hclose : |units p * least - a| ≤ 64 := by
    calc |units p * least - a| = |(units p : ℚ) - a * 2 ^ 149| * least := hdist _
      _ ≤ |(units p' : ℚ) - a * 2 ^ 149| * least :=
        mul_le_mul_of_nonneg_right (h p').1 least_pos.le
      _ = |units p' * least - a| := (hdist _).symm
      _ ≤ 64 := by rwa [hunits]
  obtain ⟨hlow, hhigh⟩ := abs_le.1 hclose
  have hfloor := Int.floor_le (units p * least)
  rw [abs_le]
  constructor
  · have hle : (a : ℤ) - 64 ≤ ⌊units p * least⌋ := by
      rw [Int.le_floor]
      push_cast
      linarith
    linarith
  · have hle : (⌊units p * least⌋ : ℚ) ≤ ((a + 64 : ℤ) : ℚ) := by
      push_cast
      linarith
    linarith [Int.cast_le.1 hle]

/-- Others come back with an error of 64 at most. -/
theorem abs_ofBinary32_toBinary32_sub_le (v : Fixed) :
    |(ofBinary32 v.toBinary32).raw.toInt - v.raw.toInt| ≤ 64 := by
  have hge := v.raw.le_toInt
  have hlt := v.raw.toInt_lt
  obtain ⟨p, hnear, hback⟩ := v.exists_ofBinary32_toBinary32
  obtain ⟨hlow, hhigh⟩ := abs_le.1 (abs_floor_sub_le_of_near (by omega) hnear)
  rw [hback, abs_le]
  by_cases hneg : v.raw.toInt < 0
  · rw [if_pos hneg]
    omega
  · rw [if_neg hneg]
    omega

/-- **Both conversions, and one after the other.**  The float of a coordinate is the nearest one to
its number of 65536ths, and of two that are as near the one with an even pattern, with the sign of
the coordinate.  The coordinate of a float is the float times 65536 without what is behind the
point, or the end of the range if that is beyond; infinity is at the end of the range, and what is
no number or has no leading bit is zero.  So a coordinate comes back from a float if it has 24 bits,
and otherwise is off by 64 at most. -/
theorem conversions_are_exact :
    (∀ (v : Fixed) (y : Binary32), y = v.toBinary32 ↔
      y.IsNearest (v.raw.toInt / 2 ^ 16) ∧ y.negative = decide (v.raw.toInt < 0)) ∧
    (∀ x : Binary32,
      (∀ q, x.rat? = some q → (ofBinary32 x).raw.toInt =
        max (-2 ^ 31) (min (2 ^ 31 - 1) (truncate (q * 2 ^ 16)))) ∧
      (∀ s, x.value = .infinite s → (ofBinary32 x).raw.toInt = if s then -2 ^ 31 else 2 ^ 31 - 1) ∧
      (x.value = .nan → (ofBinary32 x).raw.toInt = 0) ∧
      (x.pattern < 2 ^ 23 → (ofBinary32 x).raw.toInt = 0)) ∧
    (∀ v : Fixed, |v.raw.toInt| ≤ 2 ^ 24 → ofBinary32 v.toBinary32 = v) ∧
    ∀ v : Fixed, |(ofBinary32 v.toBinary32).raw.toInt - v.raw.toInt| ≤ 64 := by
  refine ⟨?_, ?_, ?_, abs_ofBinary32_toBinary32_sub_le⟩
  · intro v y
    obtain ⟨p, p', -, -, -, -, -, hnegative⟩ := v.exists_toBinary32
    constructor
    · rintro rfl
      exact ⟨isNearest_toBinary32 v, hnegative⟩
    · rintro ⟨hnear, hs⟩
      exact hnear.unique (isNearest_toBinary32 v) (hs.trans hnegative.symm)
  · intro x
    exact ⟨fun q => toInt_ofBinary32, fun s => toInt_ofBinary32_of_infinite,
      toInt_ofBinary32_of_nan, toInt_ofBinary32_of_lt⟩
  · intro v h
    exact ofBinary32_toBinary32 h

/-- The largest coordinate becomes a float beyond the range and comes back all the same.  Halfway
between two floats the error is 64. -/
example : ofBinary32 (toBinary32 ⟨Int32.maxValue⟩) = ⟨Int32.maxValue⟩ ∧
    (ofBinary32 (toBinary32 ⟨2 ^ 30 + 64⟩)).raw = 2 ^ 30 := by
  decide +kernel

end WireTree.Fixed
