/-! Places in a source text, counted in lines and in characters of the line, both from one. Reading a
character moves a position by one step, and a stretch of characters by a step for each of them. -/

namespace Questionnaire

structure Position where
  line : Nat
  column : Nat
deriving DecidableEq, Inhabited, Repr

namespace Position

/-- The place of the first character of a source. -/
def origin : Position := ⟨1, 1⟩

/-- A line feed ends its line; every other character is one column wide. -/
def step (position : Position) (c : Char) : Position :=
  if c = '\n' then ⟨position.line + 1, 1⟩ else ⟨position.line, position.column + 1⟩

/-- The place just after a stretch of characters. -/
def past (position : Position) (text : List Char) : Position := text.foldl step position

@[simp] theorem past_nil (position : Position) : position.past [] = position := rfl

@[simp] theorem past_cons (position : Position) (c : Char) (text : List Char) :
    position.past (c :: text) = (position.step c).past text := rfl

theorem past_append (position : Position) (left right : List Char) :
    position.past (left ++ right) = (position.past left).past right := by
  simp [past, List.foldl_append]

/-- Positions are ordered by line, and by column within a line. -/
def notAfter (left right : Position) : Bool :=
  left.line < right.line || (left.line == right.line && left.column ≤ right.column)

/-- The positions from the first to the last; equal ones keep their order. -/
def sorted (positions : List Position) : List Position := positions.mergeSort notAfter

def display (position : Position) : String := s!"{position.line}:{position.column}"

end Position

end Questionnaire
