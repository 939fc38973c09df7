/-
This file finds the shortest decimal that reads back as a given double, and
lays it out. Every real within half a step of a double reads back as it; the
ends of that interval count when the significand is even. For one digit, two
digits and so on, the two neighbours of the number on that decimal grid are
tried, and the first grid with a neighbour inside the interval decides. Of two
neighbours inside it the nearer one is taken; which one when they are equally
near is part of the layout.
-/

import TreeScript.Decimal.Double

namespace TreeScript.Decimal

/-- Which of two decimals is taken when a number lies halfway between them. -/
inductive Tie where
  | toEven
  | up
deriving DecidableEq, Repr

/-- Whether the lower of two decimals is taken for a number halfway between them. -/
def Tie.takesLower (tie : Tie) (lower : Nat) : Bool :=
  match tie with
  | toEven => lower % 2 = 0
  | up => false

/-- The number `digits * 10 ^ exponent`. -/
structure Numeral where
  digits : Nat
  exponent : Int
deriving DecidableEq, Repr

namespace Numeral

/-- The same number without zeros at the end of its digits. -/
def trim : Nat → Numeral → Numeral
  | 0, x => x
  | count + 1, x =>
    if x.digits ≠ 0 ∧ x.digits % 10 = 0 then trim count ⟨x.digits / 10, x.exponent + 1⟩ else x

end Numeral

namespace Double

/-- The reals that read back as a double, in quarters of its last place: the least, the double
itself, and the greatest. Below a power of two the step is half as wide. -/
def interval (x : Double) : Nat × Nat × Nat :=
  let below := if x.significand = Nat.pow 2 52 ∧ leastExponent < x.exponent then 1 else 2
  (4 * x.significand - below, 4 * x.significand, 4 * x.significand + 2)

/-- The greatest power of ten that is at most a positive fraction within the range of doubles. -/
def floorLog10 (numerator denominator : Nat) : Int :=
  let reaches := fun power : Int =>
    denominator * Nat.pow 10 power.toNat ≤ numerator * Nat.pow 10 (-power).toNat
  match (List.range 633).find? fun (drop : Nat) => reaches (308 - (drop : Int)) with
  | some drop => 308 - (drop : Int)
  | none => -324

/-- The better neighbour of a double on the grid of multiples of `10 ^ power`, if one reads back. -/
def neighbour? (x : Double) (tie : Tie) (power : Int) : Option Nat :=
  let (least, middle, greatest) := x.interval
  -- Everything is compared after multiplication by the same factor.
  let unit := Nat.pow 2 (x.exponent - 2).toNat * Nat.pow 10 (-power).toNat
  let grid := Nat.pow 2 (2 - x.exponent).toNat * Nat.pow 10 power.toNat
  let floor := middle * unit / grid
  let inside := fun candidate =>
    if x.significand % 2 = 0 then
      least * unit ≤ candidate * grid ∧ candidate * grid ≤ greatest * unit
    else least * unit < candidate * grid ∧ candidate * grid < greatest * unit
  let toFloor := middle * unit - floor * grid
  let toCeiling := (floor + 1) * grid - middle * unit
  if inside floor ∧ inside (floor + 1) then
    if toFloor < toCeiling ∨ (toFloor = toCeiling ∧ tie.takesLower floor) then some floor
    else some (floor + 1)
  else if inside floor ∧ floor ≠ 0 then some floor
  else if inside (floor + 1) then some (floor + 1)
  else none

/-- The decimal with the fewest digits that reads back as a positive double. -/
def shortest (x : Double) (tie : Tie) : Numeral :=
  let top := floorLog10 x.numerator x.denominator
  let found := (List.range 17).findSome? fun (count : Nat) =>
    let power := top - (count : Int)
    (x.neighbour? tie power).map fun digits => Numeral.mk digits power
  (found.getD ⟨0, 0⟩).trim 20

end Double

/-! ### Layout -/

/-- How a number is laid out: the exponents, of the first digit, that are written without a power
of ten, and what is written for a number halfway between two shortest decimals. -/
structure Layout where
  isPositional : Int → Bool
  tie : Tie

namespace Layout

/-- Every number without a power of ten; a half goes up. -/
def plain : Layout := ⟨fun _ => true, .up⟩

/-- Powers of ten for numbers below 0.00001 and from 10000000000000000 on; a half goes to the even
neighbour. -/
def compact : Layout := ⟨fun exponent => -5 ≤ exponent && exponent ≤ 15, .toEven⟩

def zeros (count : Nat) : List Char :=
  List.replicate count '0'

/-- A positive decimal, always with a point or a power of ten. -/
def decimal (layout : Layout) (x : Numeral) : String :=
  let digits := Nat.toDigits 10 x.digits
  let first : Int := x.exponent + digits.length - 1
  if layout.isPositional first then
    if 0 ≤ x.exponent then String.ofList (digits ++ zeros x.exponent.toNat) ++ ".0"
    else if 0 ≤ first then
      let whole := first.toNat + 1
      String.ofList (digits.take whole) ++ "." ++ String.ofList (digits.drop whole)
    else "0." ++ String.ofList (zeros (-first - 1).toNat ++ digits)
  else
    let fraction := if digits.length = 1 then "" else "." ++ String.ofList (digits.drop 1)
    let sign := if first < 0 then "-" else "+"
    String.ofList (digits.take 1) ++ fraction ++ "e" ++ sign ++ toString first.natAbs

/-- A double with its sign. -/
def double (layout : Layout) (negative : Bool) (magnitude : Double) : String :=
  let text :=
    if magnitude.significand = 0 then "0.0" else layout.decimal (magnitude.shortest layout.tie)
  if negative then "-" ++ text else text

end Layout

end TreeScript.Decimal
