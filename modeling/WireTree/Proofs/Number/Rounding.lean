/-
**Rounding to the nearest pattern.**

Without their signs the patterns are naturals, and what they stand for, counted from the least
positive number, are naturals too, which grow with the pattern.  After every `2 ^ 23` patterns the
distance of neighbours doubles, but for the first time.

To round a quotient is to find the last place that is kept, and then the nearest multiple of it.  A
pattern in the neighbourhood is such a multiple; one that is not is smaller than the first pattern
with this last place, and so is further away than that pattern.  That settles both which pattern is
nearest and that of two equally near ones the even one is taken, since a pattern is as even as the
multiple that it stands for.

Main definitions:

* `WireTree.Binary32.units` — what a pattern stands for, counted from the least positive number;
* `WireTree.Binary32.Near` — a pattern is the nearest to a number.

Main results:

* `WireTree.Binary32.strictMono_units` — patterns are in the order of their numbers;
* `WireTree.Binary32.near_of_nearest_multiple` — the nearest multiple of the last place is the
  nearest pattern;
* `WireTree.Binary32.near_nearest` — **rounding finds the nearest pattern**.
-/

import Mathlib.Algebra.Order.Field.Rat
import Mathlib.Algebra.Order.Ring.Abs
import Mathlib.Order.Monotone.Basic
import Mathlib.Tactic.FieldSimp
import Mathlib.Tactic.Linarith
import Mathlib.Tactic.NormNum
import Mathlib.Tactic.Ring
import WireTree.Number.Binary32

set_option relaxedAutoImplicit false
set_option autoImplicit false

namespace WireTree

/-! ### Rounding a quotient -/

variable {n d : ℕ}

/-- Half a unit is left only by an even number. -/
theorem even_divRound (hd : 0 < d)
    (h : 2 * (d * divRound n d) = 2 * n + d ∨ 2 * (d * divRound n d) + d = 2 * n) :
    divRound n d % 2 = 0 := by
  have hn : d * (n / d) + n % d = n := Nat.div_add_mod n d
  have hr : n % d < d := Nat.mod_lt n hd
  rw [divRound] at h ⊢
  split
  · rename_i hlow
    rw [if_pos hlow] at h
    omega
  · rename_i hlow
    rw [if_neg hlow] at h
    split
    · rename_i hhigh
      rw [if_pos hhigh, Nat.mul_succ] at h
      omega
    · omega

theorem divRound_le {m : ℕ} (h : n < m * d) : divRound n d ≤ m := by
  have hd : 0 < d := Nat.pos_of_mul_pos_left (Nat.lt_of_le_of_lt (Nat.zero_le n) h)
  by_contra hlt
  have hmul := Nat.mul_le_mul_left d (Nat.lt_of_not_le hlt)
  rw [Nat.succ_eq_add_one, Nat.mul_succ, Nat.mul_comm d m] at hmul
  have hge := (divRound_dist n hd).2
  omega

theorem le_divRound {m : ℕ} (hd : 0 < d) (h : m * d ≤ n) : m ≤ divRound n d := by
  by_contra hlt
  have hmul := Nat.mul_le_mul_left d (Nat.lt_of_not_le hlt)
  rw [Nat.succ_eq_add_one, Nat.mul_succ, Nat.mul_comm d m] at hmul
  have hle := (divRound_dist n hd).1
  omega

/-- The rounded quotient is at most half a unit away, and just half a unit only if it is even. -/
theorem abs_divRound_sub_le_half (n : ℕ) (hd : 0 < d) :
    |(divRound n d : ℚ) - n / d| ≤ 1 / 2 ∧
      (|(divRound n d : ℚ) - n / d| = 1 / 2 → divRound n d % 2 = 0) := by
  have hd' : (0 : ℚ) < d := Nat.cast_pos.2 hd
  have hdiv : (d : ℚ) * (n / d) = n := mul_div_cancel₀ _ hd'.ne'
  refine ⟨?_, ?_⟩
  · obtain ⟨hle, hge⟩ := divRound_dist n hd
    have hle' : (2 * n : ℚ) ≤ 2 * (d * divRound n d) + d := by exact_mod_cast hle
    have hge' : (2 * (d * divRound n d) : ℚ) ≤ 2 * n + d := by exact_mod_cast hge
    rw [abs_le]
    constructor
    · nlinarith
    · nlinarith
  · intro hhalf
    refine even_divRound hd ?_
    obtain habove | hbelow := (abs_eq (by norm_num)).1 hhalf
    · left
      have heq : (2 * (d * divRound n d) : ℚ) = 2 * n + d := by nlinarith
      exact_mod_cast heq
    · right
      have heq : (2 * (d * divRound n d) + d : ℚ) = 2 * n := by nlinarith
      exact_mod_cast heq

/-- No other integer is nearer to a quotient, and none is as near unless the rounded one is even. -/
theorem abs_divRound_sub_le (n : ℕ) (hd : 0 < d) (t : ℕ) :
    |(divRound n d : ℚ) - n / d| ≤ |(t : ℚ) - n / d| ∧
      (|(t : ℚ) - n / d| = |(divRound n d : ℚ) - n / d| →
        t = divRound n d ∨ divRound n d % 2 = 0) := by
  obtain ⟨hhalf, heven⟩ := abs_divRound_sub_le_half n hd
  by_cases ht : t = divRound n d
  · rw [ht]
    exact ⟨le_rfl, fun _ => .inl rfl⟩
  · -- the two integers are a unit apart, so the other one is half a unit away at least
    have hunit : (1 : ℚ) ≤ |(t : ℚ) - divRound n d| := by
      exact_mod_cast Int.one_le_abs (sub_ne_zero.2 (Nat.cast_injective.ne ht : (t : ℤ) ≠ _))
    have hfar : (1 / 2 : ℚ) ≤ |(t : ℚ) - n / d| := by
      have htriangle := abs_sub_le (t : ℚ) (n / d) (divRound n d)
      rw [abs_sub_comm ((n : ℚ) / d)] at htriangle
      linarith
    refine ⟨hhalf.trans hfar, fun htie => .inr (heven ?_)⟩
    exact le_antisymm hhalf (hfar.trans_eq htie)

namespace Binary32

/-! ### Patterns and their numbers -/

/-- What a pattern without sign stands for, counted from the least positive number. -/
def units (p : ℕ) : ℕ := if p < 2 ^ 23 then p else (2 ^ 23 + p % 2 ^ 23) * 2 ^ (p / 2 ^ 23 - 1)

theorem units_of_le {j m : ℕ} (hj : j = 0 ∨ 2 ^ 23 ≤ m) (hm : m ≤ 2 ^ 24) :
    units (j * 2 ^ 23 + m) = m * 2 ^ j := by
  rw [units]
  obtain hlt | hge := Nat.lt_or_ge m (2 ^ 23)
  · -- the patterns below the second power of two
    obtain rfl := hj.resolve_right (Nat.not_le.2 hlt)
    rw [if_pos (by omega), Nat.zero_mul, Nat.zero_add, Nat.pow_zero, Nat.mul_one]
  · rw [if_neg (by omega)]
    obtain hlt | rfl := Nat.lt_or_eq_of_le hm
    · have hdiv : (j * 2 ^ 23 + m) / 2 ^ 23 = j + 1 := by omega
      have hmod : 2 ^ 23 + (j * 2 ^ 23 + m) % 2 ^ 23 = m := by omega
      rw [hdiv, hmod, Nat.add_sub_cancel]
    · -- the mantissa is the next power of two
      have hdiv : (j * 2 ^ 23 + 2 ^ 24) / 2 ^ 23 = j + 1 + 1 := by omega
      have hmod : (j * 2 ^ 23 + 2 ^ 24) % 2 ^ 23 = 0 := by omega
      rw [hdiv, hmod, Nat.add_sub_cancel, Nat.pow_succ 2 j]
      ring

/-- Every pattern has a last place and counts how often it is taken. -/
theorem exists_place (p : ℕ) :
    ∃ j m, p = j * 2 ^ 23 + m ∧ m < 2 ^ 24 ∧ (j = 0 ∨ 2 ^ 23 ≤ m) := by
  refine ⟨p / 2 ^ 23 - 1, p - (p / 2 ^ 23 - 1) * 2 ^ 23, ?_, ?_, ?_⟩ <;> omega

/-- Patterns are in the order of their numbers. -/
theorem strictMono_units : StrictMono units := by
  refine strictMono_nat_of_lt_succ fun p => ?_
  obtain ⟨j, m, rfl, hm, hj⟩ := exists_place p
  rw [Nat.add_assoc, units_of_le hj (Nat.le_of_lt hm), units_of_le (hj.imp_right (by omega)) hm]
  exact Nat.mul_lt_mul_of_pos_right (Nat.lt_succ_self m) (Nat.two_pow_pos j)

theorem units_inj {p p' : ℕ} : units p = units p' ↔ p = p' := strictMono_units.injective.eq_iff

/-- Numbers of 24 bits have patterns, whatever the power of two behind them. -/
theorem exists_units {m : ℕ} (hm : m ≤ 2 ^ 24) (j : ℕ) : ∃ p, units p = m * 2 ^ j := by
  induction j generalizing m with
  | zero => exact ⟨m, by simpa using units_of_le (.inl (Eq.refl 0)) hm⟩
  | succ j ih =>
      by_cases hlarge : 2 ^ 23 ≤ m
      · exact ⟨_, units_of_le (.inr hlarge) hm⟩
      · obtain ⟨p, hp⟩ := ih (show 2 * m ≤ 2 ^ 24 by omega)
        exact ⟨p, by rw [hp, Nat.pow_succ]; ring⟩

/-- Multiples by powers of two have patterns. -/
theorem exists_units_mul (p k : ℕ) : ∃ p', units p' = units p * 2 ^ k := by
  obtain ⟨j, m, rfl, hm, hj⟩ := exists_place p
  obtain ⟨p', hp'⟩ := exists_units (Nat.le_of_lt hm) (j + k)
  exact ⟨p', by rw [hp', units_of_le hj (Nat.le_of_lt hm), Nat.pow_add, Nat.mul_assoc]⟩

/-- From the second power on they are found by adding to the exponent. -/
theorem units_add {p : ℕ} (hp : 2 ^ 23 ≤ p) (k : ℕ) :
    units (p + k * 2 ^ 23) = units p * 2 ^ k := by
  obtain ⟨j, m, rfl, hm, hj⟩ := exists_place p
  have hlarge : 2 ^ 23 ≤ m := by omega
  rw [Nat.add_right_comm, ← Nat.add_mul, units_of_le (.inr hlarge) (Nat.le_of_lt hm),
    units_of_le hj (Nat.le_of_lt hm), Nat.pow_add, Nat.mul_assoc]

/-- A pattern that is no multiple of a place is smaller than the patterns with this last place. -/
theorem dvd_units_or_lt (p j : ℕ) : 2 ^ j ∣ units p ∨ units p < 2 ^ 23 * 2 ^ j := by
  obtain ⟨i, m, rfl, hm, hi⟩ := exists_place p
  rw [units_of_le hi (Nat.le_of_lt hm)]
  obtain hlt | hle := Nat.lt_or_ge i j
  · right
    calc m * 2 ^ i < 2 ^ 24 * 2 ^ i := Nat.mul_lt_mul_of_pos_right hm (Nat.two_pow_pos i)
      _ = 2 ^ 23 * 2 ^ (i + 1) := by rw [Nat.pow_succ 2 i]; ring
      _ ≤ 2 ^ 23 * 2 ^ j := Nat.mul_le_mul_left _ (Nat.pow_le_pow_right Nat.two_pos hlt)
  · exact .inl (Dvd.dvd.mul_left (Nat.pow_dvd_pow 2 hle) m)

/-! ### The nearest pattern -/

theorem abs_mul_two_pow_sub (t j : ℕ) (u : ℚ) :
    |((t * 2 ^ j : ℕ) : ℚ) - u * 2 ^ j| = |(t : ℚ) - u| * 2 ^ j := by
  have hpow : (0 : ℚ) < 2 ^ j := by positivity
  rw [Nat.cast_mul, Nat.cast_pow, Nat.cast_ofNat, ← sub_mul, abs_mul, abs_of_pos hpow]

/-- No pattern is nearer to a number, and none is as near unless this one is even. -/
def Near (p : ℕ) (u : ℚ) : Prop :=
  ∀ p', |(units p : ℚ) - u| ≤ |(units p' : ℚ) - u| ∧
    (|(units p' : ℚ) - u| = |(units p : ℚ) - u| → p' = p ∨ p % 2 = 0)

/-- A number that a pattern stands for is rounded to this pattern. -/
theorem Near.eq_of_units {p p' : ℕ} {u : ℚ} (h : Near p u) (hu : (units p' : ℚ) = u) :
    p = p' := by
  have hle := (h p').1
  rw [hu, sub_self, abs_zero] at hle
  rw [← units_inj]
  exact_mod_cast (sub_eq_zero.1 (abs_eq_zero.1 (le_antisymm hle (abs_nonneg _)))).trans hu.symm

/-- What is not above a pattern is not rounded to a greater one. -/
theorem Near.le_of_le {p p' : ℕ} {u : ℚ} (h : Near p u) (hu : u ≤ units p') : p ≤ p' := by
  by_contra hlt
  have hunits : (units p' : ℚ) < units p := Nat.cast_lt.2 (strictMono_units (Nat.lt_of_not_le hlt))
  have hle := (h p').1
  rw [abs_of_nonneg (by linarith), abs_of_nonneg (by linarith)] at hle
  linarith

/-- What is not below a pattern is not rounded to a smaller one. -/
theorem Near.le_of_ge {p p' : ℕ} {u : ℚ} (h : Near p u) (hu : (units p' : ℚ) ≤ u) : p' ≤ p := by
  by_contra hlt
  have hunits : (units p : ℚ) < units p' := Nat.cast_lt.2 (strictMono_units (Nat.lt_of_not_le hlt))
  have hle := (h p').1
  rw [abs_of_nonpos (by linarith), abs_of_nonpos (by linarith)] at hle
  linarith

/-- To round before a power of two is taken away is to round after it. -/
theorem Near.of_mul {p p' k : ℕ} {u : ℚ} (h : Near p (u * 2 ^ k))
    (hp : units p = units p' * 2 ^ k) (heven : p % 2 = p' % 2) : Near p' u := by
  have hpow : (0 : ℚ) < 2 ^ k := by positivity
  intro p₁
  obtain ⟨p₂, hp₂⟩ := exists_units_mul p₁ k
  obtain ⟨hle, htie⟩ := h p₂
  rw [hp, hp₂, abs_mul_two_pow_sub, abs_mul_two_pow_sub] at hle htie
  refine ⟨le_of_mul_le_mul_right hle hpow, ?_⟩
  intro heq
  obtain rfl | hp := htie (congrArg (· * 2 ^ k) heq)
  · left
    exact units_inj.1 (Nat.eq_of_mul_eq_mul_right (Nat.two_pow_pos k) (hp₂.symm.trans hp))
  · right
    omega

/-- The nearest multiple of a place is the nearest pattern, if the number has as many digits before
this place as there are patterns with it. -/
theorem near_of_nearest_multiple {j m : ℕ} {a : ℚ} (hunits : units (j * 2 ^ 23 + m) = m * 2 ^ j)
    (hnear : ∀ t : ℕ, |(m : ℚ) - a| ≤ |(t : ℚ) - a| ∧
      (|(t : ℚ) - a| = |(m : ℚ) - a| → t = m ∨ m % 2 = 0))
    (hlarge : j = 0 ∨ 2 ^ 23 ≤ a) : Near (j * 2 ^ 23 + m) (a * 2 ^ j) := by
  have hpow : (0 : ℚ) < 2 ^ j := by positivity
  intro p'
  rw [hunits, abs_mul_two_pow_sub]
  by_cases hdvd : 2 ^ j ∣ units p'
  · -- the other pattern stands for a multiple of the place, too
    obtain ⟨t, ht⟩ := hdvd
    obtain ⟨hle, htie⟩ := hnear t
    rw [ht, Nat.mul_comm, abs_mul_two_pow_sub]
    refine ⟨mul_le_mul_of_nonneg_right hle hpow.le, ?_⟩
    intro heq
    obtain rfl | heven := htie (mul_right_cancel₀ hpow.ne' heq)
    · left
      rw [← units_inj, ht, hunits, Nat.mul_comm]
    · right
      omega
  · -- it is smaller than the first pattern with this last place, which is nearer
    have hfirst : (2 ^ 23 : ℚ) ≤ a := hlarge.resolve_left (by rintro rfl; exact hdvd (one_dvd _))
    have hsmall : (units p' : ℚ) < 2 ^ 23 * 2 ^ j := by
      exact_mod_cast (dvd_units_or_lt p' j).resolve_left hdvd
    have hle := (hnear (2 ^ 23)).1
    rw [Nat.cast_pow, Nat.cast_ofNat, abs_of_nonpos (by linarith : (2 ^ 23 : ℚ) - a ≤ 0)] at hle
    have hfar : |(m : ℚ) - a| * 2 ^ j < |(units p' : ℚ) - a * 2 ^ j| := by
      have habove := mul_le_mul_of_nonneg_right hfirst hpow.le
      calc |(m : ℚ) - a| * 2 ^ j ≤ -(2 ^ 23 - a) * 2 ^ j := mul_le_mul_of_nonneg_right hle hpow.le
        _ < -(units p' - a * 2 ^ j) := by linarith
        _ ≤ |(units p' : ℚ) - a * 2 ^ j| := neg_le_abs _
    exact ⟨hfar.le, fun htie => absurd htie hfar.ne'⟩

/-- With the last place that is kept, a quotient has 24 digits at most, and no fewer unless this is
the least place. -/
theorem lastPlace_spec (n : ℕ) (hd : 0 < d) : n < 2 ^ 24 * (d * 2 ^ lastPlace n d) ∧
    (lastPlace n d = 0 ∨ 2 ^ 23 * (d * 2 ^ lastPlace n d) ≤ n) := by
  rw [lastPlace, Nat.mul_left_comm, ← Nat.pow_add, Nat.mul_left_comm, ← Nat.pow_add]
  have hlt : n < d * 2 ^ ((n / d).log2 + 1) := by
    rw [Nat.mul_comm, ← Nat.div_lt_iff_lt_mul hd]
    exact Nat.lt_log2_self
  refine ⟨Nat.lt_of_lt_of_le hlt ?_, ?_⟩
  · exact Nat.mul_le_mul_left d (Nat.pow_le_pow_right Nat.two_pos (by omega))
  · obtain hzero | hpos := Nat.eq_zero_or_pos ((n / d).log2 - 23)
    · exact .inl hzero
    · right
      have hne : n / d ≠ 0 := by
        intro h
        rw [h, Nat.log2_zero] at hpos
        omega
      rw [Nat.add_sub_of_le (by omega), Nat.mul_comm, ← Nat.le_div_iff_mul_le hd]
      exact Nat.log2_self_le hne

/-- **Rounding finds the nearest pattern.** -/
theorem near_nearest (n : ℕ) (hd : 0 < d) : Near (nearest n d) (n / d) := by
  obtain ⟨hlt, hge⟩ := lastPlace_spec n hd
  have hD : 0 < d * 2 ^ lastPlace n d := Nat.mul_pos hd (Nat.two_pow_pos _)
  have hunits := units_of_le (hge.imp_right (le_divRound hD)) (divRound_le hlt)
  have hlarge : lastPlace n d = 0 ∨ (2 ^ 23 : ℚ) ≤ n / (d * 2 ^ lastPlace n d : ℕ) := by
    refine hge.imp_right fun hle => ?_
    rw [le_div_iff₀ (Nat.cast_pos.2 hD)]
    exact_mod_cast hle
  have hscale : (n : ℚ) / d = n / (d * 2 ^ lastPlace n d : ℕ) * 2 ^ lastPlace n d := by
    push_cast
    field_simp
  rw [hscale]
  exact near_of_nearest_multiple hunits (abs_divRound_sub_le n hD) hlarge

end Binary32

end WireTree
