import Questionnaire.Number.Shortest

/-! Numbers as text. One layout writes the digits around a point whatever the size of the number; the other
turns to a power of ten for the very large and the very small, and always shows a point or a power. -/

namespace Questionnaire

/-- How the shortest decimal of a number is laid out. -/
structure NumberLayout where
  /-- Whether a number whose first digit stands for this power of ten is written around a point. -/
  positional : Int → Bool
  /-- What a whole number written around a point ends in. -/
  wholeMark : String
  tie : Tie

namespace NumberLayout

/-- Always around a point, and a half unit goes up. -/
def plain : NumberLayout := ⟨fun _ => true, "", .upward⟩

/-- From 0.00001 up to, but not at, ten to the sixteen around a point; a half unit goes to the even digit. -/
def interchange : NumberLayout := ⟨fun power => decide (-5 ≤ power) && decide (power < 16), ".0", .toEven⟩

def zeros (n : Nat) : String := String.ofList (List.replicate n '0')

/-- Digits with the point after the given number of them. -/
def aroundPoint (layout : NumberLayout) (digits : List Char) (point : Int) : String :=
  if point ≤ 0 then "0." ++ zeros (-point).toNat ++ String.ofList digits
  else
    let count := point.toNat
    if digits.length ≤ count then String.ofList digits ++ zeros (count - digits.length) ++ layout.wholeMark
    else String.ofList (digits.take count) ++ "." ++ String.ofList (digits.drop count)

/-- One digit before the point, and the power of ten of that digit. -/
def withPower (digits : List Char) (power : Int) : String :=
  let fraction := digits.drop 1
  String.ofList (digits.take 1) ++ (if fraction.isEmpty then "" else "." ++ String.ofList fraction) ++ "e" ++
    (if power < 0 then "-" else "+") ++ toString power.natAbs

/-- The digits of a coefficient without the zeros at its end, and how many of those there were. -/
def significantDigits (coefficient : Nat) : List Char × Nat :=
  let reversed := (Nat.toDigits 10 coefficient).reverse
  ((reversed.dropWhile (· == '0')).reverse, (reversed.takeWhile (· == '0')).length)

def decimal (layout : NumberLayout) (value : Decimal) : String :=
  let (digits, dropped) := significantDigits value.coefficient
  let point := value.exponent + Int.ofNat dropped + Int.ofNat digits.length
  if layout.positional (point - 1) then layout.aroundPoint digits point else withPower digits (point - 1)

/-- A finite number without its sign. -/
def unsigned (layout : NumberLayout) (significand : Nat) (exponent : Int) : String :=
  if significand = 0 then "0" ++ layout.wholeMark
  else layout.decimal (Decimal.shortest layout.tie significand exponent)

end NumberLayout

namespace Double

def sign (negative : Bool) : String := if negative then "-" else ""

/-- A whole number with all its digits, any other by the shortest decimal, and the infinite ones by name. -/
def plainText (x : Double) : String :=
  match x with
  | .infinite negative => sign negative ++ "inf"
  | .notANumber => "NaN"
  | .finite negative significand exponent =>
    sign negative ++ match x.whole? with
      | some n => toString n
      | none => NumberLayout.plain.unsigned significand exponent

/-- The text in data interchange, which has none for a number that is not finite. -/
def interchangeText? : Double → Option String
  | .finite negative significand exponent =>
    some (sign negative ++ NumberLayout.interchange.unsigned significand exponent)
  | _ => none

/-- The bits in hexadecimal, all sixteen digits of them. -/
def hexBits (x : Double) : String :=
  let digits := Nat.toDigits 16 x.bits
  String.ofList (List.replicate (16 - digits.length) '0' ++ digits)

end Double

end Questionnaire
