import Questionnaire.Token.Basic

/-! The words with a meaning of their own: those of the logic language, and the attributes that questions
and sections may carry. -/

namespace Questionnaire.Vocabulary

def values : List String := ["true", "false", "undefined"]

def calls : List String :=
  ["has", "has_not", "only_has", "go_to", "hide", "terminate", "show_error", "randomize_rows", "rotate_rows",
    "randomize_columns", "rotate_columns", "resume_row_order", "resume_column_order", "rotate_questions",
    "randomize_questions", "resume_question_order", "query", "evaluate", "do"]

def keywords : List String := ["def", "rule", "action", "conditions", "answer", "for", "end"]

/-- The kind of a word in the logic language. -/
def kindOf (word : String) : TokenKind :=
  if word ∈ values then .valueKeyword
  else if word = "and" then .operator
  else if word ∈ calls then .callKeyword
  else if word ∈ keywords then .keyword
  else .identifier

/-- The attributes that a question or a section may carry. -/
def attributes : List String :=
  ["name", "hide", "can_skip", "fixed", "after", "before", "rotate_rows", "randomize_rows", "rotate_columns",
    "randomize_columns", "minimal_selections", "maximum_selections", "single_choice", "multiple_choice",
    "single_choice_matrix", "multi_choice_matrix", "text", "number", "minimal_value", "maximum_value",
    "rotate_questions", "randomize_questions", "data", "xor", "all", "default", "type"]

def isAttribute (word : String) : Bool := attributes.contains word

end Questionnaire.Vocabulary
