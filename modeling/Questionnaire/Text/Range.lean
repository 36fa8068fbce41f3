/-! Sets of characters given by ranges of code points. -/

namespace Questionnaire.Text

/-- Whether one of the ranges, both ends included, holds the character. -/
def covers (ranges : List (Nat × Nat)) (c : Char) : Bool :=
  ranges.any fun range => decide (range.1 ≤ c.toNat) && decide (c.toNat ≤ range.2)

end Questionnaire.Text
