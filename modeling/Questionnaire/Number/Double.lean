/-! Double-precision numbers as exact values: a significand below two to the 53, times a power of two. A
ratio is taken to the nearest of them, and one that lies halfway to the one with the even significand. -/

namespace Questionnaire

inductive Double where
  | finite (negative : Bool) (significand : Nat) (exponent : Int)
  | infinite (negative : Bool)
  | notANumber
deriving DecidableEq, Repr

namespace Double

/-- Significands are below this bound, and at least half of it unless the exponent is the least one. -/
def significandBound : Nat := Nat.pow 2 53

def leastExponent : Int := -1074

def greatestExponent : Int := 971

def zero (negative : Bool) : Double := .finite negative 0 leastExponent

/-- The quotient as a whole number, rounded to the nearest and from a half to the even one. -/
def roundedQuotient (num den : Nat) : Nat :=
  let below := num / den
  let twice := 2 * (num % den)
  if twice < den then below else if den < twice then below + 1 else below + below % 2

/-- Whether the ratio is at least the power of two. -/
def reaches (num den : Nat) (power : Int) : Bool :=
  decide (den * Nat.pow 2 power.toNat ≤ num * Nat.pow 2 (-power).toNat)

/-- The greatest power of two that a positive ratio reaches. -/
def floorLog2 (num den : Nat) : Int :=
  let guess : Int := Int.ofNat num.log2 - Int.ofNat den.log2
  if reaches num den guess then guess else guess - 1

/-- The exponent with which the ratio fills the significand, or the least one. -/
def exponentOf (num den : Nat) : Int := max (floorLog2 num den - 52) leastExponent

/-- The ratio in units of a power of two, rounded. -/
def significandAt (num den : Nat) (exponent : Int) : Nat :=
  roundedQuotient (num * Nat.pow 2 (-exponent).toNat) (den * Nat.pow 2 exponent.toNat)

/-- The double nearest to a ratio. -/
def ofRatio (negative : Bool) (num den : Nat) : Double :=
  if num = 0 then zero negative
  else
    let exponent := exponentOf num den
    let significand := significandAt num den exponent
    let (significand, exponent) :=
      if significand = significandBound then (significandBound / 2, exponent + 1) else (significand, exponent)
    if greatestExponent < exponent then .infinite negative else .finite negative significand exponent

def isFinite : Double → Bool
  | .finite .. => true
  | _ => false

/-- The absolute value of a finite number that is whole. -/
def whole? : Double → Option Nat
  | .finite _ significand exponent =>
    let unit := Nat.pow 2 (-exponent).toNat
    if significand % unit = 0 then some (significand / unit * Nat.pow 2 exponent.toNat) else none
  | _ => none

def isNegative : Double → Bool
  | .finite negative _ _ => negative
  | .infinite negative => negative
  | .notANumber => false

def signBit (negative : Bool) : Nat := if negative then 0x8000000000000000 else 0

/-- The 64 bits that stand for the number: sign, biased exponent and fraction. -/
def bits : Double → Nat
  | .finite negative significand exponent =>
    let hidden := significandBound / 2
    let field := if significand < hidden then significand
      else (exponent - leastExponent + 1).toNat * hidden + (significand - hidden)
    signBit negative + field
  | .infinite negative => signBit negative + 0x7FF0000000000000
  | .notANumber => 0x7FF8000000000000

end Double

end Questionnaire
