/-
This file bounds what rounding to a double can add to a number. Bringing a fraction to
the nearest double adds at most half a unit of the last place, which for a number of at
least one is a part of 2 ^ 53. Scaling a significand by a power of ten in steps rounds
three times, so a product that is four units below the first number that is too large
still comes out as a double.
-/

import TreeScript.Decimal.Double
import Mathlib.Algebra.Order.Field.Power
import Mathlib.Data.Rat.Cast.Order
import Mathlib.Tactic.FieldSimp
import Mathlib.Tactic.GCongr
import Mathlib.Tactic.Linarith
import Mathlib.Tactic.Positivity
import Mathlib.Tactic.Ring

namespace TreeScript.Decimal.Double

/-- The number that a double is. -/
def toRat (x : Double) : ℚ :=
  x.significand * 2 ^ x.exponent

theorem two_pow_toNat_div (exponent : ℤ) :
    (2 : ℚ) ^ exponent.toNat / 2 ^ (-exponent).toNat = 2 ^ exponent := by
  rw [← zpow_natCast, ← zpow_natCast, ← zpow_sub₀ two_ne_zero, Int.toNat_sub_toNat_neg]

theorem numerator_div_denominator (x : Double) : (x.numerator : ℚ) / x.denominator = x.toRat := by
  simp only [numerator, denominator, Nat.pow_eq, Nat.cast_mul, Nat.cast_pow, Nat.cast_ofNat]
  rw [mul_div_assoc, two_pow_toNat_div, toRat]

theorem denominator_pos (x : Double) : 0 < x.denominator :=
  Nat.two_pow_pos _

/-! ### Rounding -/

/-- Rounding adds at most one half. -/
theorem roundHalfEven_le (numerator : ℕ) {denominator : ℕ} (positive : 0 < denominator) :
    (roundHalfEven numerator denominator : ℚ) ≤ numerator / denominator + 1 / 2 := by
  have split := Nat.div_add_mod numerator denominator
  have whole : 2 * (denominator * roundHalfEven numerator denominator) ≤
      2 * numerator + denominator := by
    have parity : numerator / denominator % 2 ≤ 1 := Nat.le_of_lt_succ (Nat.mod_lt _ two_pos)
    simp only [roundHalfEven]
    by_cases below : 2 * (numerator % denominator) < denominator
    · rw [if_pos below]
      omega
    · have atMost : denominator * (numerator / denominator + 1) =
          denominator * (numerator / denominator) + denominator := Nat.mul_succ _ _
      have even : denominator * (numerator / denominator + numerator / denominator % 2) ≤
          denominator * (numerator / denominator + 1) :=
        Nat.mul_le_mul_left _ (Nat.add_le_add_left parity _)
      rw [if_neg below]
      by_cases above : denominator < 2 * (numerator % denominator)
      · rw [if_pos above]
        omega
      · rw [if_neg above]
        omega
  have cast : (2 : ℚ) * (denominator * roundHalfEven numerator denominator) ≤
      2 * numerator + denominator := by
    exact_mod_cast whole
  have positive : (0 : ℚ) < denominator := Nat.cast_pos.mpr positive
  rw [div_add_div _ _ positive.ne' two_ne_zero, le_div_iff₀ (by positivity)]
  linarith

/-- The power of two that measures a fraction is at most the fraction. -/
theorem two_zpow_floorLog2_le {numerator denominator : ℕ} (nonzero : numerator ≠ 0)
    (positive : 0 < denominator) :
    (2 : ℚ) ^ floorLog2 numerator denominator ≤ numerator / denominator := by
  have inRational : (0 : ℚ) < denominator := Nat.cast_pos.mpr positive
  simp only [floorLog2, Nat.pow_eq]
  generalize guessed : (numerator.log2 : ℤ) - denominator.log2 = guess
  by_cases fits : denominator * 2 ^ guess.toNat ≤ numerator * 2 ^ (-guess).toNat
  · rw [if_pos fits, ← two_pow_toNat_div, div_le_div_iff₀ (by positivity) inRational]
    rw [mul_comm]
    exact_mod_cast fits
  · have below : (2 : ℚ) ^ numerator.log2 ≤ numerator := by
      exact_mod_cast Nat.log2_self_le nonzero
    have above : (denominator : ℚ) ≤ 2 ^ (denominator.log2 + 1) := by
      exact_mod_cast Nat.lt_log2_self.le
    rw [if_neg fits, ← guessed, sub_sub, zpow_sub₀ two_ne_zero]
    exact div_le_div₀ (Nat.cast_nonneg _) (by exact_mod_cast below) inRational
      (by exact_mod_cast above)

/-- The exponent at which a fraction is rounded. -/
def unitExponent (numerator denominator : ℕ) : ℤ :=
  max (floorLog2 numerator denominator - 52) leastExponent

/-- The fraction in units of the last place, rounded. -/
def unitCount (numerator denominator : ℕ) : ℕ :=
  roundHalfEven (numerator * 2 ^ (-unitExponent numerator denominator).toNat)
    (denominator * 2 ^ (unitExponent numerator denominator).toNat)

/-- Counting units of the last place adds at most half of one. -/
theorem unitCount_le (numerator : ℕ) {denominator : ℕ} (positive : 0 < denominator) :
    (unitCount numerator denominator : ℚ) ≤
      numerator / denominator / 2 ^ unitExponent numerator denominator + 1 / 2 := by
  refine (roundHalfEven_le _ (Nat.mul_pos positive (Nat.two_pow_pos _))).trans_eq ?_
  rw [← two_pow_toNat_div]
  push_cast
  field_simp

section Nearest

variable {numerator denominator : ℕ}

theorem ofFraction_eq (nonzero : numerator ≠ 0) :
    ofFraction numerator denominator =
      if unitCount numerator denominator = 2 ^ 53 then
        ⟨2 ^ 52, unitExponent numerator denominator + 1⟩
      else ⟨unitCount numerator denominator, unitExponent numerator denominator⟩ := by
  rw [ofFraction, if_neg nonzero]
  rfl

theorem toRat_ofFraction (nonzero : numerator ≠ 0) :
    (ofFraction numerator denominator).toRat =
      unitCount numerator denominator * 2 ^ unitExponent numerator denominator := by
  rw [ofFraction_eq nonzero]
  by_cases carries : unitCount numerator denominator = 2 ^ 53
  · rw [if_pos carries, carries, toRat, zpow_add_one₀ two_ne_zero]
    push_cast
    ring
  · rw [if_neg carries, toRat]

/-- A fraction below the midpoint behind the largest double does not round to too large a number. -/
theorem overflows_ofFraction (positive : 0 < denominator)
    (small : (numerator / denominator : ℚ) < (2 ^ 53 - 1 / 2) * 2 ^ (971 : ℤ)) :
    (ofFraction numerator denominator).overflows = false := by
  by_cases nonzero : numerator = 0
  · rw [ofFraction, if_pos nonzero]
    rfl
  have measured : floorLog2 numerator denominator < 53 + 971 := by
    have powers : (2 : ℚ) ^ floorLog2 numerator denominator < 2 ^ (53 + 971 : ℤ) := by
      calc (2 : ℚ) ^ floorLog2 numerator denominator
          ≤ numerator / denominator := two_zpow_floorLog2_le nonzero positive
        _ < (2 ^ 53 - 1 / 2) * 2 ^ (971 : ℤ) := small
        _ ≤ 2 ^ (53 : ℤ) * 2 ^ (971 : ℤ) := by
          gcongr
          norm_num
        _ = 2 ^ (53 + 971 : ℤ) := (zpow_add₀ two_ne_zero 53 971).symm
    exact (zpow_lt_zpow_iff_right₀ one_lt_two).mp powers
  have exponent : unitExponent numerator denominator ≤ 971 := by
    simp only [unitExponent, leastExponent]
    omega
  rw [ofFraction_eq nonzero, overflows, decide_eq_false_iff_not, not_lt]
  by_cases carries : unitCount numerator denominator = 2 ^ 53
  · rw [if_pos carries]
    -- A carry at the greatest exponent would need a fraction that is not small.
    have strict : unitExponent numerator denominator ≠ 971 := by
      intro greatest
      have count := unitCount_le numerator positive
      rw [carries, greatest] at count
      have less : (numerator / denominator : ℚ) / 2 ^ (971 : ℤ) < 2 ^ 53 - 1 / 2 :=
        (div_lt_iff₀ (zpow_pos two_pos _)).mpr small
      rw [Nat.cast_pow, Nat.cast_ofNat] at count
      linarith
    simp only [greatestExponent]
    omega
  · rw [if_neg carries]
    exact exponent

end Nearest

/-! ### Scaling -/

/-- A whole number grows by at most a part of 2 ^ 53 when it is brought to a double. -/
theorem toRat_ofNat_le (n : ℕ) : (ofNat n).toRat ≤ n * (1 + 1 / 2 ^ 53) := by
  by_cases nonzero : n = 0
  · rw [ofNat, nonzero, ofFraction, if_pos rfl, zero, toRat]
    norm_num
  · have normal : unitExponent n 1 = floorLog2 n 1 - 52 := by
      have atLeast : -1 ≤ floorLog2 n 1 := by
        have log : Nat.log2 1 = 0 := by decide
        simp only [floorLog2, log]
        split <;> omega
      simp only [unitExponent, leastExponent]
      omega
    have unit : (2 : ℚ) ^ unitExponent n 1 ≤ n / 2 ^ 52 := by
      have measured := two_zpow_floorLog2_le nonzero one_pos
      rw [Nat.cast_one, div_one] at measured
      rw [normal, zpow_sub₀ two_ne_zero]
      exact div_le_div_of_nonneg_right measured (by positivity)
    have count := unitCount_le n one_pos
    rw [Nat.cast_one, div_one] at count
    rw [ofNat, toRat_ofFraction nonzero]
    calc (unitCount n 1 : ℚ) * 2 ^ unitExponent n 1
        ≤ (n / 2 ^ unitExponent n 1 + 1 / 2) * 2 ^ unitExponent n 1 := by gcongr
      _ = n + 2 ^ unitExponent n 1 / 2 := by
        field_simp
      _ ≤ n + n / 2 ^ 52 / 2 := by gcongr
      _ = n * (1 + 1 / 2 ^ 53) := by ring

theorem toRat_nonneg (x : Double) : 0 ≤ x.toRat :=
  mul_nonneg (Nat.cast_nonneg _) (zpow_nonneg zero_le_two _)

theorem mul_eq_ofFraction (x y : Double) :
    ∃ numerator denominator : ℕ, 0 < denominator ∧ x.mul y = ofFraction numerator denominator ∧
      (numerator / denominator : ℚ) = x.toRat * y.toRat := by
  refine ⟨_, _, Nat.mul_pos x.denominator_pos y.denominator_pos, rfl, ?_⟩
  rw [← numerator_div_denominator, ← numerator_div_denominator]
  push_cast
  exact mul_div_mul_comm _ _ _ _

section Steps

variable {significand : ℕ} {exponent : ℤ}
  (small : (significand * 10 ^ exponent : ℚ) ≤ (2 ^ 53 - 4) * 2 ^ (971 : ℤ))

include small

theorem le_stepLimit (nonzero : significand ≠ 0) : exponent ≤ stepLimit := by
  by_contra beyond
  have atLeastOne : (1 : ℚ) ≤ significand := Nat.one_le_cast.mpr (Nat.pos_of_ne_zero nonzero)
  have whole : 2 ^ 53 * 2 ^ 971 ≤ 10 ^ 309 := by decide +kernel
  have below : (significand * 10 ^ exponent : ℚ) < significand * 10 ^ exponent := by
    calc (significand * 10 ^ exponent : ℚ)
        ≤ (2 ^ 53 - 4) * 2 ^ (971 : ℤ) := small
      _ < 2 ^ 53 * 2 ^ (971 : ℤ) := by
        gcongr
        norm_num
      _ ≤ 1 * 10 ^ (309 : ℤ) := by
        rw [one_mul]
        exact_mod_cast whole
      _ ≤ significand * 10 ^ exponent := by
        gcongr
        · norm_num
        · exact not_le.mp beyond
  exact below.false

theorem overflows_mul_powerOfTen (upward : 0 ≤ exponent) :
    ((ofNat significand).mul (powerOfTen exponent.toNat)).overflows = false := by
  obtain ⟨numerator, denominator, positive, isFraction, exact⟩ :=
    mul_eq_ofFraction (ofNat significand) (powerOfTen exponent.toNat)
  have power : ((Nat.pow 10 exponent.toNat : ℕ) : ℚ) = 10 ^ exponent := by
    rw [Nat.pow_eq, Nat.cast_pow, Nat.cast_ofNat, ← zpow_natCast, Int.toNat_of_nonneg upward]
  rw [isFraction]
  refine overflows_ofFraction positive ?_
  calc (numerator / denominator : ℚ)
      = (ofNat significand).toRat * (powerOfTen exponent.toNat).toRat := exact
    _ ≤ significand * (1 + 1 / 2 ^ 53) * (10 ^ exponent * (1 + 1 / 2 ^ 53)) := by
      rw [← power]
      exact mul_le_mul (toRat_ofNat_le _) (toRat_ofNat_le _) (toRat_nonneg _) (by positivity)
    _ = significand * 10 ^ exponent * (1 + 1 / 2 ^ 53) ^ 2 := by ring
    _ ≤ (2 ^ 53 - 4) * 2 ^ (971 : ℤ) * (1 + 1 / 2 ^ 53) ^ 2 := by gcongr
    _ = (2 ^ 53 - 4) * (1 + 1 / 2 ^ 53) ^ 2 * 2 ^ (971 : ℤ) := by ring
    _ < (2 ^ 53 - 1 / 2) * 2 ^ (971 : ℤ) := by
      gcongr
      norm_num

/-- Four units below the first number that is too large, scaling in steps gives a double. -/
theorem scale?_isSome : (scale? significand exponent).isSome := by
  simp only [scale?]
  by_cases isZero : significand = 0
  · rw [if_pos isZero]
    rfl
  rw [if_neg isZero, if_neg (not_lt.mpr (le_stepLimit small isZero))]
  by_cases upward : 0 ≤ exponent
  · rw [if_pos upward, overflows_mul_powerOfTen small upward]
    rfl
  · rw [if_neg upward]
    rfl

end Steps

end TreeScript.Decimal.Double
