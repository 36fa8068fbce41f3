import Questionnaire.Document.Basic
import Questionnaire.Number.Written
import Questionnaire.Text.Quoted

/-! Expressions and statements as text, each form in brackets with its operator or keyword first. -/

namespace Questionnaire

mutual

def Expr.rendered : Expr → String
  | .binary left op right _ => "(" ++ op.lexeme ++ " " ++ left.rendered ++ " " ++ right.rendered ++ ")"
  | .assign target value _ => "(= " ++ target.text ++ " " ++ value.rendered ++ ")"
  | .symbol name _ => name.text
  | .property container name _ => "(. " ++ container.rendered ++ " " ++ name.text ++ ")"
  | .number value _ => value.plainText
  | .string value _ => Text.quoted value
  | .boolean value _ => if value then "true" else "false"
  | .undefined _ => "undefined"
  | .answered question mode answers _ =>
    "(" ++ mode.keyword ++ " " ++ question.text ++ Expr.renderedAfter answers ++ ")"

/-- Each of the expressions after a space. -/
def Expr.renderedAfter : List Expr → String
  | [] => ""
  | expr :: exprs => " " ++ expr.rendered ++ Expr.renderedAfter exprs

end

/-- Each of the conditions after its bar. -/
def SimpleStatement.renderedConditions (conditions : List SimpleStatement) : String :=
  String.join (conditions.map fun condition => " | " ++ condition.expression.rendered)

mutual

def Statement.rendered : Statement → String
  | .simple statement => statement.expression.rendered
  | .declaration name (some value) _ => "(def " ++ name.text ++ " " ++ value.rendered ++ ")"
  | .declaration name none _ => "(def " ++ name.text ++ ")"
  | .command name arguments _ => "(" ++ name.text ++ Expr.renderedAfter arguments ++ ")"
  | .evaluate target _ => "(evaluate " ++ target.text ++ ")"
  | .perform target _ => "(do " ++ target.text ++ ")"
  | .rule name conditions action _ =>
    "(rule " ++ name.text ++ SimpleStatement.renderedConditions conditions ++ " " ++ action.rendered ++ ")"
  | .action name action _ => "(action " ++ name.text ++ " " ++ action.rendered ++ ")"
  | .conditionSet name conditions _ =>
    "(conditions " ++ name.text ++ SimpleStatement.renderedConditions conditions ++ ")"

def Block.rendered : Block → String
  | .mk statements _ => "\x7b" ++ Statement.renderedInBlock statements ++ "\x7d"

/-- The statements with a space between any two. -/
def Statement.renderedInBlock : List Statement → String
  | [] => ""
  | statement :: statements => statement.rendered ++ Statement.renderedAfter statements

/-- Each of the statements after a space. -/
def Statement.renderedAfter : List Statement → String
  | [] => ""
  | statement :: statements => " " ++ statement.rendered ++ Statement.renderedAfter statements

end

end Questionnaire
