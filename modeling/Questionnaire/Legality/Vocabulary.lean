import Questionnaire.Document.Basic
import Questionnaire.Token.Vocabulary

/-! The groups of attributes that the rules for surveys speak of. -/

namespace Questionnaire

inductive QuestionType where
  | singleChoice
  | multipleChoice
  | singleChoiceMatrix
  | multiChoiceMatrix
  | text
  | number
deriving DecidableEq, Inhabited, Repr

namespace QuestionType

def all : List QuestionType :=
  [.singleChoice, .multipleChoice, .singleChoiceMatrix, .multiChoiceMatrix, .text, .number]

/-- The attribute that gives a question the type. -/
def keyword : QuestionType → String
  | .singleChoice => "single_choice"
  | .multipleChoice => "multiple_choice"
  | .singleChoiceMatrix => "single_choice_matrix"
  | .multiChoiceMatrix => "multi_choice_matrix"
  | .text => "text"
  | .number => "number"

def ofKeyword? (word : String) : Option QuestionType := all.find? fun type => type.keyword == word

theorem ofKeyword?_keyword (type : QuestionType) : ofKeyword? type.keyword = some type := by
  cases type <;> decide

/-- Answered in words or digits, not by choosing among rows. -/
def isOpenEnded : QuestionType → Bool
  | .text => true
  | .number => true
  | _ => false

/-- Answered by choosing columns for rows. -/
def isMatrix : QuestionType → Bool
  | .singleChoiceMatrix => true
  | .multiChoiceMatrix => true
  | _ => false

end QuestionType

namespace Vocabulary

def questionTypes : List String := QuestionType.all.map QuestionType.keyword

def rowOrders : List String := ["rotate_rows", "randomize_rows"]

def columnOrders : List String := ["rotate_columns", "randomize_columns"]

def selectionBounds : List String := ["minimal_selections", "maximum_selections"]

def valueBounds : List String := ["minimal_value", "maximum_value"]

/-- The attributes that an answer option may carry. -/
def optionAttributes : List String := ["fixed", "data", "xor", "all", "col"]

/-- Of these an answer option may carry one at most. -/
def optionChoices : List String := ["xor", "all"]

end Vocabulary

end Questionnaire
