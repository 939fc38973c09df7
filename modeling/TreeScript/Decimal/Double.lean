/-
This file computes with doubles exactly, in whole numbers. A double is a
significand of at most 53 bits times a power of two, and a positive fraction is
brought to the nearest double, a tie going to the even significand. Numbers too
large for a double keep a larger exponent and are told apart by `overflows`, so
that products and quotients need no special case.
-/

namespace TreeScript.Decimal

/-- The number `significand * 2 ^ exponent`. -/
structure Double where
  significand : Nat
  exponent : Int
deriving DecidableEq, Repr

namespace Double

def zero : Double := ⟨0, 0⟩

/-- The least exponent of a double; below it significands lose bits. -/
def leastExponent : Int := -1074

/-- The exponent of the largest doubles. -/
def greatestExponent : Int := 971

def overflows (x : Double) : Bool :=
  greatestExponent < x.exponent

/-- The numerator of a double as a fraction. -/
def numerator (x : Double) : Nat :=
  x.significand * Nat.pow 2 x.exponent.toNat

/-- The denominator of a double as a fraction, a power of two. -/
def denominator (x : Double) : Nat :=
  Nat.pow 2 (-x.exponent).toNat

/-- The nearest whole number to a fraction, a half going to the even neighbour. -/
def roundHalfEven (numerator denominator : Nat) : Nat :=
  let quotient := numerator / denominator
  let twice := 2 * (numerator % denominator)
  if twice < denominator then quotient
  else if denominator < twice then quotient + 1
  else quotient + quotient % 2

/-- The greatest power of two that is at most a positive fraction. -/
def floorLog2 (numerator denominator : Nat) : Int :=
  let guess : Int := (numerator.log2 : Int) - denominator.log2
  if denominator * Nat.pow 2 guess.toNat ≤ numerator * Nat.pow 2 (-guess).toNat then guess
  else guess - 1

/-- The double nearest to a fraction whose denominator is not zero. -/
def ofFraction (numerator denominator : Nat) : Double :=
  if numerator = 0 then zero
  else
    let exponent := max (floorLog2 numerator denominator - 52) leastExponent
    let significand :=
      roundHalfEven (numerator * Nat.pow 2 (-exponent).toNat)
        (denominator * Nat.pow 2 exponent.toNat)
    if significand = Nat.pow 2 53 then ⟨Nat.pow 2 52, exponent + 1⟩ else ⟨significand, exponent⟩

def ofNat (n : Nat) : Double :=
  ofFraction n 1

def mul (x y : Double) : Double :=
  ofFraction (x.numerator * y.numerator) (x.denominator * y.denominator)

/-- The quotient by a double that is not zero. -/
def div (x y : Double) : Double :=
  ofFraction (x.numerator * y.denominator) (x.denominator * y.numerator)

/-- The double nearest to a power of ten. -/
def powerOfTen (exponent : Nat) : Double :=
  ofNat (Nat.pow 10 exponent)

/-- The double nearest to `significand * 10 ^ exponent`, rounded once. -/
def ofDecimal (significand : Nat) (exponent : Int) : Double :=
  ofFraction (significand * Nat.pow 10 exponent.toNat) (Nat.pow 10 (-exponent).toNat)

/-! ### Scaling in steps

The quick way to read a decimal rounds the significand, the power of ten and
their product or quotient in turn. Powers beyond the table are divided out one
full step at a time.
-/

/-- The largest power of ten that scales in one step. -/
def stepLimit : Nat := 308

/-- The number divided by the largest step a given number of times. -/
def divideSteps : Nat → Double → Double
  | 0, x => x
  | count + 1, x =>
    if x.significand = 0 then x else divideSteps count (x.div (powerOfTen stepLimit))

/-- The significand scaled by a power of ten in steps, unless the result is too large. -/
def scale? (significand : Nat) (exponent : Int) : Option Double :=
  let x := ofNat significand
  if significand = 0 then some zero
  else if (stepLimit : Int) < exponent then none
  else if 0 ≤ exponent then
    let product := x.mul (powerOfTen exponent.toNat)
    if product.overflows then none else some product
  else
    let power := (-exponent).toNat
    let steps := (power - 1) / stepLimit
    some ((divideSteps steps x).div (powerOfTen (power - steps * stepLimit)))

end Double

end TreeScript.Decimal
