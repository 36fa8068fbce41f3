/-! The operators of expressions and the ways to ask about answers. -/

namespace Questionnaire

inductive BinaryOp where
  | and
  | equal
  | notEqual
  | less
  | lessEqual
  | greater
  | greaterEqual
  | add
  | subtract
  | multiply
  | divide
  | modulo
deriving DecidableEq, Inhabited, Repr

namespace BinaryOp

def all : List BinaryOp :=
  [.and, .equal, .notEqual, .less, .lessEqual, .greater, .greaterEqual, .add, .subtract, .multiply, .divide, .modulo]

def lexeme : BinaryOp → String
  | .and => "and"
  | .equal => "=="
  | .notEqual => "!="
  | .less => "<"
  | .lessEqual => "<="
  | .greater => ">"
  | .greaterEqual => ">="
  | .add => "+"
  | .subtract => "-"
  | .multiply => "*"
  | .divide => "/"
  | .modulo => "%"

/-- Operators of a higher precedence bind tighter. -/
def precedence : BinaryOp → Nat
  | .and => 1
  | .equal | .notEqual => 2
  | .less | .lessEqual | .greater | .greaterEqual => 3
  | .add | .subtract => 4
  | .multiply | .divide | .modulo => 5

def ofLexeme? (word : String) : Option BinaryOp := all.find? fun op => op.lexeme == word

theorem ofLexeme?_lexeme (op : BinaryOp) : ofLexeme? op.lexeme = some op := by
  cases op <;> decide

end BinaryOp

/-- Whether some, none or nothing but the listed answers were given. -/
inductive AnswerMode where
  | has
  | hasNot
  | onlyHas
deriving DecidableEq, Inhabited, Repr

namespace AnswerMode

def all : List AnswerMode := [.has, .hasNot, .onlyHas]

def keyword : AnswerMode → String
  | .has => "has"
  | .hasNot => "has_not"
  | .onlyHas => "only_has"

def ofKeyword? (word : String) : Option AnswerMode := all.find? fun mode => mode.keyword == word

theorem ofKeyword?_keyword (mode : AnswerMode) : ofKeyword? mode.keyword = some mode := by
  cases mode <;> decide

end AnswerMode

end Questionnaire
