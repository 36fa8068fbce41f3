import Questionnaire.Grammar.Expression

/-! The grammar of logic. A statement may end in a semicolon, and statements follow one another up to a closing
mark. Blocks nest as brackets do. -/

namespace Questionnaire.Rule

def simpleStatement (expr : Rule Expr) : Rule SimpleStatement := do
  let first ← current
  let expression ← budgeted expr
  return ⟨expression, ← spanSince first⟩

/-- An expression that stands in a text or as the value of an attribute. -/
def embedded (expr : Rule Expr) : Rule SimpleStatement :=
  bracketed do
    let first ← expect .embeddedOpen
    let expression ← budgeted expr
    let _ ← expect .embeddedClose
    return ⟨expression, ← spanSince first⟩

/-- Statements up to a closing brace, which is taken too. -/
def block (statement : Rule Statement) : Rule Block :=
  bracketed do
    let first ← expectWord .punctuation "\x7b"
    let statements ← repeatWhile fun token =>
      if token.spells .punctuation "\x7d" then none
      else if token.kind = .endOfInput then some (refuse (.expected "\x7d" token.found))
      else some statement
    let _ ← expectWord .punctuation "\x7d"
    return ⟨statements, ← spanSince first⟩

def condition (expr : Rule Expr) : Rule SimpleStatement := do
  let _ ← expectWord .punctuation "|"
  simpleStatement expr

/-- At least one condition, and more of them up to the word that ends them. -/
def conditions (expr : Rule Expr) (kind : TokenKind) (word : String) : Rule (List SimpleStatement) := do
  let first ← condition expr
  let others ← repeatWhile fun token => if token.spells kind word then none else some (condition expr)
  return first :: others

def ruleDefinition (expr : Rule Expr) (statement : Rule Statement) : Rule Statement := do
  let first ← expectWord .keyword "rule"
  let name ← expect .identifier
  let _ ← expectWord .punctuation ":"
  let conditions ← conditions expr .punctuation "\x7b"
  let action ← block statement
  return .rule name conditions action (← spanSince first)

def actionDefinition (statement : Rule Statement) : Rule Statement := do
  let first ← expectWord .keyword "action"
  let name ← expect .identifier
  let action ← block statement
  return .action name action (← spanSince first)

def conditionSet (expr : Rule Expr) : Rule Statement := do
  let first ← expectWord .keyword "conditions"
  let name ← expect .identifier
  let _ ← expectWord .punctuation ":"
  let conditions ← conditions expr .keyword "end"
  let _ ← expectWord .keyword "end"
  return .conditionSet name conditions (← spanSince first)

/-- The value of a declaration cannot itself be an assignment. -/
def declaration (value : Rule Expr) : Rule Statement := do
  let first ← expectWord .keyword "def"
  let name ← expect .identifier
  let value ← do
    if ← passWord .operator "=" then some <$> budgeted value else pure none
  return .declaration name value (← spanSince first)

/-- A word and the name it is about. -/
def invocation (form : Token → Span → Statement) : Rule Statement := do
  let first ← current
  shift
  let target ← expect .identifier
  return form target (← spanSince first)

/-- The arguments of a command share one budget. -/
def command (arguments : Rule (List Expr)) : Rule Statement := do
  let name ← expect .callKeyword
  let arguments ← budgeted arguments
  return .command name arguments (← spanSince name)

/-- A statement without the semicolon after it, by the rule for what stands between brackets and the one for the
statements of a block. -/
def bareStatement (inner : Rule Expr) (statement : Rule Statement) : Rule Statement := do
  let token ← current
  let simple := Statement.simple <$> simpleStatement (assignment inner)
  match token.kind with
  | .string => simple
  | .number => simple
  | .valueKeyword => simple
  | .identifier => simple
  | .punctuation => if token.text = "(" then simple else refuseUnexpected
  | .callKeyword =>
    if token.text = "evaluate" then invocation .evaluate
    else if token.text = "do" then invocation .perform
    else if (AnswerMode.ofKeyword? token.text).isSome then refuseUnexpected
    else command (arguments inner)
  | .keyword =>
    if token.text = "rule" then ruleDefinition (assignment inner) statement
    else if token.text = "action" then actionDefinition statement
    else if token.text = "conditions" then conditionSet (assignment inner)
    else if token.text = "def" then declaration (operation inner)
    else if token.text = "answer" then simple
    else refuseUnexpected
  | _ => refuseUnexpected

/-- A statement with fewer than the given number of brackets around any of its tokens. -/
def statement : Nat → Rule Statement
  | 0 => refuse .tooDeep
  | level + 1 => do
    let statement ← bareStatement (expression level) (statement level)
    let _ ← passWord .punctuation ";"
    return statement

end Questionnaire.Rule
