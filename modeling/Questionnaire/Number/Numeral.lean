import Questionnaire.Number.Double

/-! Decimal numerals: an optional sign, digits with at most one point among or beside them, and an optional
exponent of ten; or one of the words for infinity and for no number, in any case. -/

namespace Questionnaire

/-- The value is the coefficient times ten to the exponent. -/
structure Numeral where
  negative : Bool
  coefficient : Nat
  exponent : Int
deriving DecidableEq, Repr

namespace Numeral

/-- The number that decimal digits write. -/
def digitsValue (digits : List Char) : Nat :=
  digits.foldl (fun value digit => value * 10 + (digit.toNat - '0'.toNat)) 0

/-- The double nearest to the numeral. Beyond the powers of ten that doubles span the answer is infinity or
zero, whatever the digits are. -/
def toDouble (numeral : Numeral) : Double :=
  let { negative, coefficient, exponent } := numeral
  let magnitude := Int.ofNat (Nat.toDigits 10 coefficient).length + exponent
  if coefficient = 0 then .zero negative
  else if 310 ≤ magnitude then .infinite negative
  else if magnitude ≤ -324 then .zero negative
  else .ofRatio negative (coefficient * Nat.pow 10 exponent.toNat) (Nat.pow 10 (-exponent).toNat)

/-- An optional sign, and whether it is a minus. -/
def signed : List Char → Bool × List Char
  | '-' :: rest => (true, rest)
  | '+' :: rest => (false, rest)
  | text => (false, text)

/-- The exponent after its mark: a sign if there is one and at least one digit, with nothing behind. -/
def exponent? (text : List Char) : Option Int :=
  let (negative, digits) := signed text
  if digits.isEmpty || !digits.all Char.isDigit then none
  else
    let value := Int.ofNat (digitsValue digits)
    some (if negative then -value else value)

/-- Digits, then a point and digits, both optional but not both empty, then an optional exponent. -/
def unsigned? (negative : Bool) (text : List Char) : Option Numeral :=
  let whole := text.takeWhile Char.isDigit
  let afterWhole := text.dropWhile Char.isDigit
  let (fraction, rest) := match afterWhole with
    | '.' :: rest => (rest.takeWhile Char.isDigit, rest.dropWhile Char.isDigit)
    | rest => ([], rest)
  if whole.isEmpty && fraction.isEmpty then none
  else
    let exponent := match rest with
      | [] => some 0
      | mark :: power => if mark = 'e' ∨ mark = 'E' then exponent? power else none
    exponent.map fun exponent => ⟨negative, digitsValue (whole ++ fraction), exponent - fraction.length⟩

end Numeral

/-- The number a text writes, if it writes one. -/
def Double.read? (text : List Char) : Option Double :=
  let (negative, unsigned) := Numeral.signed text
  let word := String.ofList (unsigned.map Char.toLower)
  if word = "inf" ∨ word = "infinity" then some (.infinite negative)
  else if word = "nan" then some .notANumber
  else (Numeral.unsigned? negative unsigned).map Numeral.toDouble

end Questionnaire
