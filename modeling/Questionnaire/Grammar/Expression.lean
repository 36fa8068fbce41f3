import Questionnaire.Grammar.Rule
import Questionnaire.Grammar.Chain
import Questionnaire.Number.Numeral

/-! The grammar of expressions. Every rule takes the rule for what stands between brackets, and the levels of
bracketing are tied together at the end: at level zero there is no expression left to read. -/

namespace Questionnaire.Rule

/-- Arguments between brackets, separated by commas. -/
def arguments (inner : Rule Expr) : Rule (List Expr) :=
  bracketed do
    let _ ← expectWord .punctuation "("
    let answers ← do
      if (← current).spells .punctuation ")" then pure []
      else
        let first ← inner
        let others ← repeatWhile fun token =>
          if token.spells .punctuation "," then some do
            shift
            inner
          else none
        pure (first :: others)
    let _ ← expectWord .punctuation ")"
    return answers

/-- The members asked for after a reference, outermost last. -/
def members : Rule (List Token) :=
  repeatWhile fun token =>
    if token.spells .punctuation "." then some do
      charge
      shift
      let name ← current
      if name.kind = .identifier then
        shift
        return name
      else refuse .invalidProperty
    else none

/-- A reference with the members asked for after it. Nothing else has members. -/
def withMembers (container : Expr) : Rule Expr := do
  if container.isReference then
    return (← members).foldl (fun owner name => .property owner name ⟨owner.span.first, name⟩) container
  else return container

/-- An expression in brackets spans the brackets. -/
def group (inner : Rule Expr) : Rule Expr :=
  bracketed do
    let first ← current
    shift
    let expr ← inner
    let last ← expectWord .punctuation ")"
    return expr.withSpan ⟨first, last⟩

def number : Rule Expr := do
  let token ← current
  shift
  match Double.read? token.text.toList with
  | some value => return .number value (.single token)
  | none => throw ⟨.invalidNumber token.text, token.position⟩

/-- A literal that is one word. -/
def constant (word : String) (span : Span) : Expr :=
  if word = "true" then .boolean true span
  else if word = "false" then .boolean false span
  else .undefined span

def answerMode : Rule AnswerMode := do
  let token ← current
  match AnswerMode.ofKeyword? token.text with
  | some mode =>
    if token.kind = .callKeyword then
      shift
      return mode
    else refuseUnexpected
  | none => refuseUnexpected

def answered (inner : Rule Expr) : Rule Expr := do
  let first ← expectWord .keyword "answer"
  let _ ← expectWord .keyword "for"
  let question ← expect .identifier
  let mode ← answerMode
  let answers ← arguments inner
  return .answered question mode answers (← spanSince first)

def operand (inner : Rule Expr) : Rule Expr := do
  let token ← current
  match token.kind with
  | .punctuation => if token.text = "(" then withMembers (← group inner) else refuseUnexpected
  | .identifier =>
    shift
    withMembers (.symbol token (.single token))
  | .number => number
  | .string =>
    shift
    return .string token.text (.single token)
  | .valueKeyword =>
    shift
    return constant token.text (.single token)
  | .keyword => if token.text = "answer" then answered inner else refuseUnexpected
  | _ => refuseUnexpected

/-- The operators and operands after the first operand. -/
def links (inner : Rule Expr) : Rule (List (BinaryOp × Expr)) :=
  repeatWhile fun token =>
    if token.kind = .operator then
      (BinaryOp.ofLexeme? token.text).map fun op => do
        charge
        shift
        return (op, ← operand inner)
    else none

/-- Operands joined by operators. -/
def operation (inner : Rule Expr) : Rule Expr := do
  let first ← operand inner
  return (Chain.ofLinks first (← links inner)).expr

/-- An operation, or its value given to a name. -/
def assignment (inner : Rule Expr) : Rule Expr := do
  let left ← operation inner
  if (← current).spells .operator "=" then
    match left with
    | .symbol target span =>
      shift
      let value ← operation inner
      return .assign target value ⟨span.first, value.span.last⟩
    | _ => refuse .invalidAssignment
  else return left

/-- An expression with fewer than the given number of brackets around any of its tokens. -/
def expression : Nat → Rule Expr
  | 0 => refuse .tooDeep
  | level + 1 => assignment (expression level)

end Questionnaire.Rule
