/-
This file says which numerals have a value whatever digits they are written with. The
digits that are kept of a numeral never write more than all of them, so only rounding can
make a number too large, and rounding adds a few units of the last place at most.
-/

import TreeScript.Proofs.Json.Scalars
import TreeScript.Proofs.Decimal.Rounding

namespace TreeScript.Json

open Decimal

/-! ### Kept digits -/

theorem mul_pow_le_digitsValue (start : Nat) (digits : List Char) :
    start * 10 ^ digits.length ≤ digitsValue start digits := by
  induction digits generalizing start with
  | nil => exact (Nat.mul_one start).le
  | cons c digits inductionHypothesis =>
    calc start * 10 ^ (digits.length + 1)
        = start * 10 * 10 ^ digits.length := by ring
      _ ≤ (start * 10 + digitValue c) * 10 ^ digits.length := by gcongr; exact Nat.le_add_right _ _
      _ ≤ digitsValue (start * 10 + digitValue c) digits := inductionHypothesis _

section Taking

variable (start : Nat) (digits : List Char)

theorem takeDigits_count_le : (takeDigits start digits).2 ≤ digits.length := by
  induction digits generalizing start with
  | nil => exact Nat.le_refl _
  | cons c digits inductionHypothesis =>
    rw [takeDigits]
    split
    · exact Nat.zero_le _
    · exact Nat.succ_le_succ (inductionHypothesis _)

/-- With zeros for the digits that are dropped, the number is not larger. -/
theorem takeDigits_mul_le :
    (takeDigits start digits).1 * 10 ^ (digits.length - (takeDigits start digits).2) ≤
      digitsValue start digits := by
  induction digits generalizing start with
  | nil => exact (Nat.mul_one start).le
  | cons c digits inductionHypothesis =>
    rw [takeDigits]
    split
    · exact mul_pow_le_digitsValue start (c :: digits)
    · rw [List.length_cons, Nat.add_sub_add_right]
      exact inductionHypothesis _

variable {start digits}

theorem takeDigits_le_significandLimit (small : start ≤ significandLimit) :
    (takeDigits start digits).1 ≤ significandLimit := by
  induction digits generalizing start with
  | nil => exact small
  | cons c digits inductionHypothesis =>
    rw [takeDigits]
    split
    · exact small
    · rename_i fits
      exact inductionHypothesis (Nat.not_lt.mp fits)

theorem takeDigits_of_count_zero (none : (takeDigits start digits).2 = 0) :
    (takeDigits start digits).1 = start := by
  cases digits with
  | nil => rfl
  | cons c digits =>
    rw [takeDigits] at none ⊢
    split at none
    · rename_i stops
      rw [if_pos stops]
    · cases none

/-- The first digit that is dropped would have made the significand too large. -/
theorem significandLimit_mul_lt (stops : (takeDigits start digits).2 < digits.length) :
    (significandLimit + 1) * 10 ^ (digits.length - (takeDigits start digits).2 - 1) ≤
      digitsValue start digits := by
  induction digits generalizing start with
  | nil => cases stops
  | cons c digits inductionHypothesis =>
    rw [takeDigits] at stops ⊢
    split at stops
    · rename_i large
      rw [if_pos large]
      exact (Nat.mul_le_mul_right _ large).trans (mul_pow_le_digitsValue _ digits)
    · rename_i fits
      rw [if_neg fits]
      rw [List.length_cons, Nat.add_sub_add_right]
      exact inductionHypothesis (Nat.lt_of_succ_lt_succ stops)

end Taking

/-! ### Numerals in range -/

/-- The number in the exponent of a numeral. -/
def Power.exponent (power : Power) : ℤ :=
  if power.sign = some '-' then -digitsValue 0 power.digits else digitsValue 0 power.digits

/-- Scaling gives a double unless the result is too large; the power of ten is read to its end
because no text is long enough to make up for one that is not. -/
theorem scaleBy?_isSome {power : Option Power} {significand : Nat} {scale : ℤ}
    (near : -(2 * 10 ^ 9) ≤ scale)
    (small : (significand * 10 ^ (scale + power.elim 0 Power.exponent) : ℚ) ≤
      (2 ^ 53 - 4) * 2 ^ (971 : ℤ)) :
    (scaleBy? power significand scale).isSome := by
  cases power with
  | none =>
    rw [Option.elim_none, add_zero] at small
    exact Double.scale?_isSome small
  | some power =>
    rw [Option.elim_some, Power.exponent] at small
    simp only [scaleBy?]
    by_cases large : exponentLimit < digitsValue 0 power.digits
    · rw [if_pos large]
      by_cases vanishes : significand = 0 ∨ power.sign = some '-'
      · rw [if_pos vanishes]
        rfl
      · obtain ⟨nonzero, upward⟩ := not_or.mp vanishes
        rw [if_neg upward] at small
        have bounded := Double.le_stepLimit small nonzero
        have table : Double.stepLimit = 308 := rfl
        have limit : exponentLimit = 2 ^ 31 - 1 := rfl
        omega
    · rw [if_neg large]
      by_cases downward : power.sign = some '-'
      · rw [if_pos downward] at small ⊢
        exact Double.scale?_isSome small
      · rw [if_neg downward] at small ⊢
        exact Double.scale?_isSome small

namespace Numeral

variable (numeral : Numeral)

/-- The digits behind the point. -/
def decimals : List Char :=
  numeral.fraction.getD []

/-- All digits as one whole number. -/
def significand : Nat :=
  digitsValue 0 (numeral.whole ++ numeral.decimals)

/-- The absolute value of the number that a numeral writes. -/
def absolute : ℚ :=
  numeral.significand * 10 ^ (numeral.power.elim 0 Power.exponent - numeral.decimals.length)

/-- The value of a numeral for a reader that rounds once, which takes every number up to the largest
double. -/
def nearest? : Option Json :=
  numeral.jsonOf? (if numeral.absolute ≤ (2 ^ 53 - 1) * 2 ^ 971 then
    some (.ofDecimal numeral.significand
      (numeral.power.elim 0 Power.exponent - numeral.decimals.length)) else none)

/-- What is kept of the digits before the point. -/
def kept : Nat :=
  (takeDigits 0 numeral.whole).1

theorem parts_eq :
    numeral.parts = ((takeDigits numeral.kept numeral.decimals).1,
      (numeral.dropped : ℤ) - (takeDigits numeral.kept numeral.decimals).2) := by
  rw [parts, decimals]
  cases numeral.fraction with
  | some digits => rfl
  | none => simp [takeDigits, kept]

theorem significand_eq : numeral.significand =
    digitsValue (digitsValue 0 numeral.whole) numeral.decimals :=
  List.foldl_append

/-- The digits that are kept write no more than all digits. -/
theorem kept_mul_le :
    (takeDigits numeral.kept numeral.decimals).1 * 10 ^ (numeral.dropped +
        (numeral.decimals.length - (takeDigits numeral.kept numeral.decimals).2)) ≤
      numeral.significand := by
  rw [significand_eq]
  have shifted := mul_pow_le_digitsValue (digitsValue 0 numeral.whole) numeral.decimals
  by_cases all : numeral.dropped = 0
  · have isWhole : numeral.kept = digitsValue 0 numeral.whole := by
      rw [kept, takeDigits_of_le (numeral.dropped_eq_zero_iff.mp all)]
    rw [all, Nat.zero_add, ← isWhole]
    exact takeDigits_mul_le _ _
  by_cases none : (takeDigits numeral.kept numeral.decimals).2 = 0
  · rw [none, takeDigits_of_count_zero none, Nat.sub_zero, Nat.pow_add, ← Nat.mul_assoc]
    exact (Nat.mul_le_mul_right _ (takeDigits_mul_le 0 numeral.whole)).trans shifted
  · -- A digit behind the point is kept after one before it was dropped: the dropped digit was
    -- larger than the kept one.
    have count := takeDigits_count_le numeral.kept numeral.decimals
    have stops : (takeDigits 0 numeral.whole).2 < numeral.whole.length := by
      rw [dropped] at all
      omega
    have limit : (takeDigits numeral.kept numeral.decimals).1 ≤ significandLimit + 1 :=
      (takeDigits_le_significandLimit (takeDigits_le_significandLimit (Nat.zero_le _))).trans
        (Nat.le_succ _)
    calc (takeDigits numeral.kept numeral.decimals).1 * 10 ^ (numeral.dropped +
          (numeral.decimals.length - (takeDigits numeral.kept numeral.decimals).2))
        ≤ (significandLimit + 1) * 10 ^ (numeral.dropped - 1 + numeral.decimals.length) :=
          Nat.mul_le_mul limit (Nat.pow_le_pow_right (by decide) (by omega))
      _ = (significandLimit + 1) * 10 ^ (numeral.dropped - 1) * 10 ^ numeral.decimals.length := by
          rw [Nat.pow_add, Nat.mul_assoc]
      _ ≤ digitsValue 0 numeral.whole * 10 ^ numeral.decimals.length :=
          Nat.mul_le_mul_right _ (significandLimit_mul_lt stops)
      _ ≤ digitsValue (digitsValue 0 numeral.whole) numeral.decimals := shifted

theorem parts_le (exponent : ℤ) :
    (numeral.parts.1 * 10 ^ (numeral.parts.2 + exponent) : ℚ) ≤
      numeral.significand * 10 ^ (exponent - numeral.decimals.length) := by
  have count := takeDigits_count_le numeral.kept numeral.decimals
  have whole := numeral.kept_mul_le
  rw [parts_eq]
  generalize takeDigits numeral.kept numeral.decimals = taken at count whole
  have cast : (taken.1 * 10 ^ (numeral.dropped + (numeral.decimals.length - taken.2)) : ℚ) ≤
      numeral.significand := by
    exact_mod_cast whole
  have ten : (10 : ℚ) ≠ 0 := by norm_num
  have exponents : (numeral.dropped : ℤ) - taken.2 + exponent =
      (numeral.dropped + (numeral.decimals.length - taken.2) : ℕ) +
        (exponent - numeral.decimals.length) := by
    omega
  calc (taken.1 * 10 ^ ((numeral.dropped : ℤ) - taken.2 + exponent) : ℚ)
      = taken.1 * 10 ^ (numeral.dropped + (numeral.decimals.length - taken.2)) *
          10 ^ (exponent - numeral.decimals.length) := by
        rw [exponents, zpow_add₀ ten, zpow_natCast, mul_assoc]
    _ ≤ numeral.significand * 10 ^ (exponent - numeral.decimals.length) := by gcongr

theorem decimals_length_le : numeral.decimals.length ≤ numeral.text.length := by
  have inFraction : numeral.decimals.length ≤ numeral.fractionText.length := by
    rw [decimals, fractionText]
    cases numeral.fraction with
    | some digits => exact Nat.le_succ _
    | none => exact Nat.le_refl _
  have inUnsigned : numeral.unsigned.length ≤ numeral.text.length := by
    rw [text]
    split
    · exact Nat.le_succ _
    · exact Nat.le_refl _
  simp only [unsigned, List.length_append] at inUnsigned
  omega

theorem neg_decimals_length_le : -(numeral.decimals.length : ℤ) ≤ numeral.parts.2 := by
  have count := takeDigits_count_le numeral.kept numeral.decimals
  rw [parts_eq]
  dsimp only
  omega

variable {numeral}

/-- A numeral that is not absurdly long and lies a few units below the first number that is too
large has a value. -/
theorem exists_json? (short : numeral.text.length ≤ 2 * 10 ^ 9)
    (small : numeral.absolute ≤ (2 ^ 53 - 4) * 2 ^ 971) : ∃ json, numeral.json? = some json := by
  have hasMagnitude : numeral.magnitude?.isSome := by
    have written := numeral.decimals_length_le
    have near := numeral.neg_decimals_length_le
    refine scaleBy?_isSome (by omega) ?_
    rw [zpow_ofNat]
    exact (numeral.parts_le _).trans small
  rw [json?, jsonOf?]
  split
  · exact ⟨_, rfl⟩
  · obtain ⟨magnitude, isMagnitude⟩ := Option.isSome_iff_exists.mp hasMagnitude
    exact ⟨_, by rw [isMagnitude, Option.map_some]⟩

end Numeral

end TreeScript.Json
