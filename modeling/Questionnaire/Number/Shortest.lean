import Questionnaire.Number.Double

/-! The shortest decimal that reads back as a given double. The decimals that round to a double lie between
the points halfway to its neighbours. For one digit, two digits and so on, the two decimals of that many
digits around the double are tried, and the first that lies between those points is taken. -/

namespace Questionnaire

/-- The value is the coefficient times ten to the exponent. -/
structure Decimal where
  coefficient : Nat
  exponent : Int
deriving DecidableEq, Repr

/-- Which of two equally near decimals is taken. -/
inductive Tie where
  | upward
  | toEven
deriving DecidableEq, Repr

namespace Shortest

/-- A positive double and the points halfway to its neighbours, over a common denominator. The points belong
to the interval exactly when the significand is even. -/
structure Interval where
  low : Nat
  value : Nat
  high : Nat
  denominator : Nat
  closed : Bool

/-- The interval of a positive finite double. Below a power of two the neighbour is half as far away. -/
def interval (significand : Nat) (exponent : Int) : Interval :=
  let unit := Nat.pow 2 (exponent - 2).toNat
  let below := if significand = Double.significandBound / 2 ∧ Double.leastExponent < exponent then 1 else 2
  { low := (4 * significand - below) * unit
    value := 4 * significand * unit
    high := (4 * significand + 2) * unit
    denominator := Nat.pow 2 (2 - exponent).toNat
    closed := significand % 2 == 0 }

/-- The same interval in units of a power of ten. -/
def Interval.inUnits (range : Interval) (power : Int) : Interval :=
  let scale := Nat.pow 10 (-power).toNat
  { low := range.low * scale
    value := range.value * scale
    high := range.high * scale
    denominator := range.denominator * Nat.pow 10 power.toNat
    closed := range.closed }

/-- Whether a whole number of units lies in the interval. -/
def Interval.holds (range : Interval) (units : Nat) : Bool :=
  let point := units * range.denominator
  if range.closed then decide (range.low ≤ point) && decide (point ≤ range.high)
  else decide (range.low < point) && decide (point < range.high)

def digitCount (n : Nat) : Nat := (Nat.toDigits 10 n).length

/-- The greatest power of ten that a positive ratio reaches. -/
def floorLog10 (num den : Nat) : Int :=
  if den ≤ num then Int.ofNat (digitCount (num / den)) - 1
  else -Int.ofNat (digitCount ((den - 1) / num))

/-- The nearer of the two whole numbers of units around the value. -/
def Interval.nearer (range : Interval) (tie : Tie) (units : Nat) : Nat :=
  let twice := 2 * (range.value % range.denominator)
  if twice < range.denominator then units
  else if range.denominator < twice then units + 1
  else match tie with
    | .upward => units + 1
    | .toEven => units + units % 2

/-- The whole number of units that lies in the interval beside the value, if one does. -/
def Interval.choice (range : Interval) (tie : Tie) : Option Nat :=
  let units := range.value / range.denominator
  match range.holds units, range.holds (units + 1) with
  | true, true => some (range.nearer tie units)
  | true, false => some units
  | false, true => some (units + 1)
  | false, false => none

/-- Tries this many digits, and one more as long as the attempts last. -/
def search (range : Interval) (tie : Tie) (top : Int) : (digits attempts : Nat) → Decimal
  | digits, attempts =>
    let power := top - Int.ofNat digits + 1
    let scaled := range.inUnits power
    match scaled.choice tie, attempts with
    | some units, _ => ⟨units, power⟩
    | none, 0 => ⟨scaled.value / scaled.denominator, power⟩
    | none, attempts + 1 => search range tie top (digits + 1) attempts

end Shortest

/-- The shortest decimal that reads back as a positive finite double: seventeen digits always suffice. -/
def Decimal.shortest (tie : Tie) (significand : Nat) (exponent : Int) : Decimal :=
  let range := Shortest.interval significand exponent
  Shortest.search range tie (Shortest.floorLog10 range.value range.denominator) 1 16

end Questionnaire
