/-
**Floats as rational numbers.**

A pattern that is not beyond the numbers stands for a rational: its sign, and what the pattern
without sign stands for, times the least positive number.  A float is nearest to a rational if no
other finite float is nearer, and none is as near unless the pattern is even; together with its sign
that makes it the only one.

Rounding a quotient gives the nearest pattern, or infinity if that is beyond the numbers, and a
quotient that a pattern stands for is not rounded at all.

Main definitions:

* `WireTree.Binary32.rat?` — the rational that a pattern stands for, if it stands for one;
* `WireTree.Binary32.IsNearest` — a float is the nearest to a rational, ties going to even patterns;
* `WireTree.Binary32.truncate` — a rational without what is behind the point.

Main results:

* `WireTree.Binary32.value_cases` — the three sorts of patterns;
* `WireTree.Binary32.IsNearest.unique` — there is one nearest float with a given sign;
* `WireTree.Binary32.isNearest_of_near` — the nearest pattern is that of the nearest float;
* `WireTree.Binary32.exists_near_ofRatio` — quotients are rounded to the nearest pattern;
* `WireTree.Binary32.toInt_toInt32` — conversion to integers is truncation and clamping.
-/

import Mathlib.Data.Rat.Floor
import WireTree.Proofs.Number.Rounding

set_option relaxedAutoImplicit false
set_option autoImplicit false

namespace WireTree.Binary32

/-! ### Patterns and signs -/

/-- The pattern without its sign. -/
def pattern (x : Binary32) : ℕ := x.bits.toNat % 2 ^ 31

/-- Whether the bit of the sign is set. -/
def negative (x : Binary32) : Bool := x.bits.toNat.testBit 31

variable {x y : Binary32}

theorem toNat_bits (x : Binary32) : x.bits.toNat = signBit x.negative + x.pattern := by
  have hlt : x.bits.toNat < 2 ^ 32 := x.bits.toNat_lt
  rw [negative, pattern, signBit, Nat.testBit_eq_decide_div_mod_eq]
  split
  · rename_i h
    simp at h
    omega
  · rename_i h
    simp at h
    omega

theorem bits_mod_two (x : Binary32) : x.bits.toNat % 2 = x.pattern % 2 := by
  rw [pattern]
  omega

theorem eq_of_negative_of_pattern (hs : x.negative = y.negative) (hp : x.pattern = y.pattern) :
    x = y := by
  have hbits : x.bits = y.bits := by
    rw [← UInt32.toNat_inj, toNat_bits, toNat_bits y, hs, hp]
  cases x
  cases y
  exact congrArg mk hbits

@[simp] theorem signBit_false : signBit false = 0 := rfl

@[simp] theorem signBit_true : signBit true = 2 ^ 31 := rfl

theorem toNat_ofNat_signBit (s : Bool) {p : ℕ} (hp : p < 2 ^ 31) :
    (UInt32.ofNat (signBit s + p)).toNat = signBit s + p := by
  rw [UInt32.toNat_ofNat', Nat.mod_eq_of_lt]
  cases s
  · rw [signBit_false]
    omega
  · rw [signBit_true]
    omega

theorem pattern_mk (s : Bool) {p : ℕ} (hp : p < 2 ^ 31) :
    pattern ⟨UInt32.ofNat (signBit s + p)⟩ = p := by
  rw [pattern, toNat_ofNat_signBit s hp]
  cases s
  · rw [signBit_false]
    omega
  · rw [signBit_true]
    omega

theorem negative_mk (s : Bool) {p : ℕ} (hp : p < 2 ^ 31) :
    negative ⟨UInt32.ofNat (signBit s + p)⟩ = s := by
  rw [negative, toNat_ofNat_signBit s hp, Nat.testBit_eq_decide_div_mod_eq]
  cases s
  · rw [signBit_false, decide_eq_false_iff_not]
    omega
  · rw [signBit_true, decide_eq_true_eq]
    omega

/-- The sign of a number. -/
def sign (negative : Bool) : ℚ := if negative then -1 else 1

/-- What a value is as a rational, if it is one. -/
def Value.rat? : Value → Option ℚ
  | nan | infinite _ => none
  | finite negative mantissa exponent => some (sign negative * (mantissa * 2 ^ exponent))

/-- What a float is as a rational, if it is one. -/
def rat? (x : Binary32) : Option ℚ := x.value.rat?

/-- The least positive number. -/
def least : ℚ := 2 ^ (-149 : ℤ)

theorem least_pos : 0 < least := zpow_pos (by norm_num) _

theorem two_pow_mul_least : (2 : ℚ) ^ 149 * least = 1 := by norm_num [least]

@[simp] theorem abs_sign (s : Bool) : |sign s| = 1 := by
  cases s <;> simp [sign]

/-- A pattern stands for a number, for infinity or for none. -/
theorem value_cases (x : Binary32) :
    (x.pattern < infinityBits ∧ ∃ m e, x.value = .finite x.negative m e ∧
      (m : ℚ) * 2 ^ e = units x.pattern * least) ∨
    (x.pattern = infinityBits ∧ x.value = .infinite x.negative) ∨
    (infinityBits < x.pattern ∧ x.value = .nan) := by
  have hfield : x.bits.toNat / 2 ^ 23 % 2 ^ 8 = x.pattern / 2 ^ 23 := by rw [pattern]; omega
  have hfraction : x.bits.toNat % 2 ^ 23 = x.pattern % 2 ^ 23 := by rw [pattern]; omega
  have hlt : x.pattern < 2 ^ 31 := Nat.mod_lt _ (Nat.two_pow_pos 31)
  simp only [value, hfield, hfraction, infinityBits]
  by_cases hlast : x.pattern / 2 ^ 23 = 255
  · by_cases hzero : x.pattern % 2 ^ 23 = 0
    · refine .inr (.inl ⟨by omega, ?_⟩)
      rw [if_pos hlast, if_pos hzero]
      rfl
    · refine .inr (.inr ⟨by omega, ?_⟩)
      rw [if_pos hlast, if_neg hzero]
  · refine .inl ⟨by omega, ?_⟩
    rw [if_neg hlast]
    by_cases hfirst : x.pattern / 2 ^ 23 = 0
    · rw [if_pos hfirst]
      refine ⟨_, _, rfl, ?_⟩
      rw [units, if_pos (by omega), Nat.mod_eq_of_lt (by omega)]
      rfl
    · rw [if_neg hfirst]
      refine ⟨_, _, rfl, ?_⟩
      have hexponent : (2 : ℚ) ^ (((x.pattern / 2 ^ 23 : ℕ) : ℤ) - 150) =
          2 ^ (x.pattern / 2 ^ 23 - 1) * least := by
        rw [least, ← zpow_natCast, ← zpow_add₀ two_ne_zero]
        congr 1
        omega
      rw [units, if_neg (by omega), hexponent, Nat.cast_mul, Nat.cast_pow, Nat.cast_ofNat,
        mul_assoc]

theorem rat?_eq_some_iff {r : ℚ} : x.rat? = some r ↔
    x.pattern < infinityBits ∧ sign x.negative * (units x.pattern * least) = r := by
  rw [rat?]
  obtain ⟨hlt, m, e, hvalue, hunits⟩ | ⟨heq, hvalue⟩ | ⟨hgt, hvalue⟩ := x.value_cases
  · rw [hvalue, Value.rat?, hunits, Option.some_inj]
    exact ⟨fun h => ⟨hlt, h⟩, fun h => h.2⟩
  · rw [hvalue, heq]
    simp [Value.rat?]
  · rw [hvalue]
    simp [Value.rat?, hgt.not_gt]

theorem value_of_pattern_eq (h : x.pattern = infinityBits) : x.value = .infinite x.negative := by
  obtain ⟨hlt, -⟩ | ⟨-, hvalue⟩ | ⟨hgt, -⟩ := x.value_cases
  · omega
  · exact hvalue
  · omega

theorem exists_value_of_rat? {r : ℚ} (h : x.rat? = some r) :
    ∃ m e, x.value = .finite x.negative m e ∧ (m : ℚ) * 2 ^ e = units x.pattern * least ∧
      r = sign x.negative * (m * 2 ^ e) := by
  obtain ⟨hlt, rfl⟩ := rat?_eq_some_iff.1 h
  obtain ⟨-, m, e, hvalue, hunits⟩ | ⟨heq, -⟩ | ⟨hgt, -⟩ := x.value_cases
  · exact ⟨m, e, hvalue, hunits, by rw [hunits]⟩
  · omega
  · omega

/-! ### The nearest float -/

/-- No finite float is nearer to a number, and none is as near unless the pattern of this one is
even. -/
def IsNearest (x : Binary32) (q : ℚ) : Prop :=
  ∃ r, x.rat? = some r ∧ ∀ y r', rat? y = some r' → |r - q| ≤ |r' - q| ∧
    (|r' - q| = |r - q| → r' = r ∨ x.bits.toNat % 2 = 0)

theorem abs_sign_sub_sign (s t : Bool) (a u : ℚ) :
    |sign s * (a * least) - sign t * (u * least)| = |sign s * a - sign t * u| * least := by
  rw [← mul_assoc, ← mul_assoc, ← sub_mul, abs_mul, abs_of_pos least_pos]

theorem abs_sign_sub_sign_self (s : Bool) (a u : ℚ) : |sign s * a - sign s * u| = |a - u| := by
  rw [← mul_sub, abs_mul, abs_sign, one_mul]

/-- Numbers of different signs are not nearer to each other than without their signs. -/
theorem abs_sub_le_abs_sign_sub {a u : ℚ} (ha : 0 ≤ a) (hu : 0 ≤ u) (s t : Bool) :
    |a - u| ≤ |sign s * a - sign t * u| := by
  have h := abs_abs_sub_abs_le (sign s * a) (sign t * u)
  rwa [abs_mul, abs_mul, abs_sign, abs_sign, one_mul, one_mul, abs_of_nonneg ha,
    abs_of_nonneg hu] at h

theorem abs_sign_sub_sign_of_ne {s t : Bool} (h : s ≠ t) {a u : ℚ} (ha : 0 ≤ a) (hu : 0 ≤ u) :
    |sign s * a - sign t * u| = a + u := by
  have hsign : sign t = -sign s := by
    cases s <;> cases t <;> simp [sign] at h ⊢
  rw [hsign, neg_mul, sub_neg_eq_add, ← mul_add, abs_mul, abs_sign, one_mul,
    abs_of_nonneg (add_nonneg ha hu)]

/-- A float is nearest if its pattern is nearest and the sign is right. -/
theorem isNearest_of_near {u : ℚ} (hu : 0 ≤ u) (hfin : x.pattern < infinityBits)
    (h : Near x.pattern u) : IsNearest x (sign x.negative * (u * least)) := by
  refine ⟨_, rat?_eq_some_iff.2 ⟨hfin, rfl⟩, ?_⟩
  intro y r' hy
  obtain ⟨-, rfl⟩ := rat?_eq_some_iff.1 hy
  obtain ⟨hle, htie⟩ := h y.pattern
  have hfar := abs_sub_le_abs_sign_sub (Nat.cast_nonneg (units y.pattern)) hu y.negative x.negative
  rw [abs_sign_sub_sign, abs_sign_sub_sign, abs_sign_sub_sign_self]
  refine ⟨mul_le_mul_of_nonneg_right (hle.trans hfar) least_pos.le, ?_⟩
  intro heq
  have heq := mul_right_cancel₀ least_pos.ne' heq
  obtain hp | heven := htie (le_antisymm (hfar.trans_eq heq) hle)
  · left
    by_cases hs : y.negative = x.negative
    · rw [hp, hs]
    · -- a pattern that is as near with either sign is that of zero
      have ha : (0 : ℚ) ≤ units x.pattern := Nat.cast_nonneg _
      have hzero : (units x.pattern : ℚ) = 0 := by
        rw [hp, abs_sign_sub_sign_of_ne hs ha hu] at heq
        obtain hle | hle := le_total (units x.pattern : ℚ) u
        · rw [abs_of_nonpos (by linarith)] at heq
          linarith
        · rw [abs_of_nonneg (by linarith)] at heq
          have hleast := (h 0).1
          have hzero : units 0 = 0 := rfl
          rw [show u = 0 by linarith, hzero, Nat.cast_zero, sub_zero, sub_zero, abs_zero] at hleast
          exact abs_nonpos_iff.1 hleast
      rw [hp, hzero, zero_mul, mul_zero, mul_zero]
  · right
    rwa [bits_mod_two]

/-- Between two multiples that are as near there is a nearer one. -/
theorem abs_sub_lt_of_between {a b c k q : ℚ} (hk : k ≠ 0) (hab : a < b) (hbc : b < c)
    (h : |k * c - q| = |k * a - q|) : |k * b - q| < |k * a - q| := by
  obtain heq | heq := abs_eq_abs.1 h
  · have hca : c = a := mul_left_cancel₀ hk (by linarith)
    exact absurd (hab.trans hbc) (hca ▸ lt_irrefl a)
  · have hmiddle : q = k * ((a + c) / 2) := by linarith
    rw [hmiddle, ← mul_sub, ← mul_sub, abs_mul, abs_mul]
    refine mul_lt_mul_of_pos_left ?_ (abs_pos.2 hk)
    rw [abs_of_neg (by linarith : a - (a + c) / 2 < 0), abs_lt]
    constructor
    · linarith
    · linarith

/-- There is one nearest float with a given sign. -/
theorem IsNearest.unique {q : ℚ} (hx : IsNearest x q) (hy : IsNearest y q)
    (hs : x.negative = y.negative) : x = y := by
  refine eq_of_negative_of_pattern hs ?_
  by_contra hne
  wlog hlt : x.pattern < y.pattern generalizing x y
  · exact this hy hx hs.symm (Ne.symm hne) (lt_of_le_of_ne (Nat.not_lt.1 hlt) (Ne.symm hne))
  obtain ⟨r, hr, hnear⟩ := hx
  obtain ⟨r', hr', hnear'⟩ := hy
  have hdist : |r' - q| = |r - q| := le_antisymm (hnear' x r hr).1 (hnear y r' hr').1
  have hxeven := (hnear y r' hr').2 hdist
  have hyeven := (hnear' x r hr).2 hdist.symm
  obtain ⟨-, rfl⟩ := rat?_eq_some_iff.1 hr
  obtain ⟨hfin, rfl⟩ := rat?_eq_some_iff.1 hr'
  rw [← hs] at hdist hxeven hyeven
  have hk : sign x.negative * least ≠ 0 :=
    mul_ne_zero (abs_ne_zero.1 (by rw [abs_sign]; exact one_ne_zero)) least_pos.ne'
  have hcomm (p : ℕ) :
      sign x.negative * (units p * least) = sign x.negative * least * units p := by ring
  have hunits : sign x.negative * (units y.pattern * least) ≠
      sign x.negative * (units x.pattern * least) := by
    rw [hcomm, hcomm]
    exact fun h => hne (units_inj.1 (Nat.cast_injective (mul_left_cancel₀ hk h))).symm
  have hxeven := hxeven.resolve_left hunits
  have hyeven := hyeven.resolve_left hunits.symm
  rw [bits_mod_two] at hxeven hyeven
  -- both patterns are even, so there is a pattern between them
  have hbits : infinityBits < 2 ^ 31 := by decide
  have hz := rat?_eq_some_iff.2 ⟨(pattern_mk x.negative (by omega)).trans_lt
    (by omega : x.pattern + 1 < infinityBits), rfl⟩
  rw [negative_mk x.negative (by omega), pattern_mk x.negative (by omega)] at hz
  rw [hcomm, hcomm] at hdist
  have hbetween := abs_sub_lt_of_between hk
    (Nat.cast_lt.2 (strictMono_units (by omega : x.pattern < x.pattern + 1)))
    (Nat.cast_lt.2 (strictMono_units (by omega : x.pattern + 1 < y.pattern))) hdist
  rw [← hcomm, ← hcomm] at hbetween
  exact absurd (hnear _ _ hz).1 (not_le.2 hbetween)

/-! ### Rounding quotients -/

theorem two_zpow (e : ℤ) : (2 : ℚ) ^ e = 2 ^ e.toNat / 2 ^ (-e).toNat := by
  obtain ⟨k, rfl | rfl⟩ := e.eq_nat_or_neg
  · simp
  · simp

theorem negative_ofRatio (s : Bool) (n d : ℕ) (e : ℤ) : (ofRatio s n d e).negative = s :=
  negative_mk s (Nat.lt_of_le_of_lt (Nat.min_le_right ..) (by decide))

variable {d : ℕ}

/-- A quotient is rounded to the nearest pattern, and patterns beyond the numbers are infinity. -/
theorem exists_near_ofRatio (s : Bool) (n : ℕ) (hd : 0 < d) (e : ℤ) : ∃ p u,
    (n : ℚ) / d * 2 ^ e = u * least ∧ 0 ≤ u ∧ Near p u ∧
      (ofRatio s n d e).pattern = min p infinityBits := by
  have hd' : 0 < d * 2 ^ (-(e + 149)).toNat := Nat.mul_pos hd (Nat.two_pow_pos _)
  refine ⟨_, _, ?_, ?_, near_nearest (n * 2 ^ (e + 149).toNat) hd', ?_⟩
  · have hexponent : (2 : ℚ) ^ e = 2 ^ (e + 149) * least := by
      rw [least, ← zpow_add₀ two_ne_zero, add_neg_cancel_right]
    rw [hexponent, two_zpow (e + 149), ← mul_assoc, div_mul_div_comm]
    push_cast
    rfl
  · positivity
  · exact pattern_mk s (Nat.lt_of_le_of_lt (Nat.min_le_right ..) (by decide))

/-- A quotient that a pattern stands for is not rounded. -/
theorem pattern_ofRatio {s : Bool} {n p : ℕ} (hd : 0 < d) {e : ℤ}
    (h : (n : ℚ) / d * 2 ^ e = units p * least) :
    (ofRatio s n d e).pattern = min p infinityBits := by
  obtain ⟨p', u, hu, -, hnear, hp'⟩ := exists_near_ofRatio s n hd e
  rw [hp', hnear.eq_of_units (mul_right_cancel₀ least_pos.ne' (h.symm.trans hu))]

/-! ### Arithmetic -/

theorem mul_eq_ofRatio {s t : Bool} {m n : ℕ} {e f : ℤ} (hx : x.value = .finite s m e)
    (hy : y.value = .finite t n f) : x.mul y = ofRatio (s != t) (m * n) 1 (e + f) := by
  rw [mul, hx, hy]

theorem div_eq_ofRatio {s t : Bool} {m n : ℕ} {e f : ℤ} (hx : x.value = .finite s m e)
    (hy : y.value = .finite t n f) (hn : n ≠ 0) : x.div y = ofRatio (s != t) m n (e - f) := by
  rw [div, hx, hy]
  exact if_neg hn

/-! ### Integers -/

/-- A number without what is behind the point. -/
def truncate (q : ℚ) : ℤ := if 0 ≤ q then ⌊q⌋ else ⌈q⌉

theorem toInt_clamp (n : ℤ) : (clamp n).toInt = max (-2 ^ 31) (min (2 ^ 31 - 1) n) := by
  rw [clamp, Int32.toInt_ofInt_of_le (by omega) (by omega)]

theorem wholePart_eq_floor (m : ℕ) (e : ℤ) : (wholePart m e : ℤ) = ⌊(m : ℚ) * 2 ^ e⌋ := by
  rw [wholePart, two_zpow, ← mul_div_assoc]
  exact_mod_cast (Rat.floor_natCast_div_natCast (m * 2 ^ e.toNat) (2 ^ (-e).toNat)).symm

theorem truncate_sign_mul (s : Bool) {q : ℚ} (hq : 0 ≤ q) :
    truncate (sign s * q) = if s then -⌊q⌋ else ⌊q⌋ := by
  cases s
  · rw [sign, if_neg Bool.false_ne_true, one_mul, truncate, if_pos hq, if_neg Bool.false_ne_true]
  · rw [sign, if_pos rfl, neg_one_mul, truncate, if_pos rfl]
    split
    · obtain rfl : q = 0 := by linarith
      simp
    · exact Int.ceil_neg

theorem toInt_toInt32_of_infinite {s : Bool} (h : x.value = .infinite s) :
    x.toInt32.toInt = if s then -2 ^ 31 else 2 ^ 31 - 1 := by
  rw [toInt32, h]
  cases s <;> rfl

/-- The integer that a finite float stands for has the digits before the point, or is the end of the
range. -/
theorem toInt_toInt32 {r : ℚ} (h : x.rat? = some r) :
    x.toInt32.toInt = max (-2 ^ 31) (min (2 ^ 31 - 1) (truncate r)) := by
  obtain ⟨m, e, hvalue, -, rfl⟩ := exists_value_of_rat? h
  have hnonneg : (0 : ℚ) ≤ m * 2 ^ e :=
    mul_nonneg (Nat.cast_nonneg m) (zpow_nonneg (by norm_num) e)
  rw [truncate_sign_mul _ hnonneg, ← wholePart_eq_floor, toInt32, hvalue]
  exact toInt_clamp _

end WireTree.Binary32
