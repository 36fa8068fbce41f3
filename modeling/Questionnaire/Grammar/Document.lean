import Questionnaire.Grammar.Statement

/-! The grammar of documents: questions with their options, sections and interludes, up to the end of input. -/

namespace Questionnaire

namespace Rule

def attributeValue (embedded : Rule SimpleStatement) : Rule AttributeValue := do
  let token ← current
  match token.kind with
  | .string =>
    shift
    return .string token
  | .embeddedOpen => AttributeValue.embedded <$> embedded
  | _ => refuse (.invalidAttributeValue token.found)

/-- A bare name, or a known attribute with or without a value. -/
def oneAttribute (embedded : Rule SimpleStatement) : Rule Attribute := do
  let name ← current
  match name.kind with
  | .identifier =>
    shift
    return ⟨name.text, none, true, .single name⟩
  | .attributeKeyword =>
    shift
    let value ← do
      if ← passWord .punctuation "=" then some <$> attributeValue embedded else pure none
    return ⟨name.text, value, false, ← spanSince name⟩
  | _ => refuse (.invalidAttributeName name.found)

/-- Attributes between two marks. -/
def attributes (embedded : Rule SimpleStatement) (opening closing : TokenKind) : Rule (List Attribute) := do
  let _ ← expect opening
  let attributes ← repeatWhile fun token =>
    if token.kind = closing then none
    else if token.kind = .endOfInput then some (refuse (.expected closing.description token.found))
    else some (oneAttribute embedded)
  let _ ← expect closing
  return attributes

def texts (embedded : Rule SimpleStatement) : Rule (List TextPart) :=
  repeatWhile fun token =>
    match token.kind with
    | .textRun => some do
      shift
      return .text token
    | .embeddedOpen => some (TextPart.embedded <$> embedded)
    | _ => none

def answerOption (embedded : Rule SimpleStatement) : Rule AnswerOption := do
  let first ← current
  let attributes ← attributes embedded .optionOpen .optionClose
  let texts ← texts embedded
  return ⟨texts, attributes, ← spanSince first⟩

/-- Whether a component begins with the token. -/
def opensComponent (token : Token) : Bool := token.kind == .questionOpen || token.kind == .logicOpen

/-- Attributes that another component follows at once are a section, and a question in all other cases. -/
def question (embedded : Rule SimpleStatement) : Rule Component := do
  let first ← current
  let attributes ← attributes embedded .questionOpen .questionClose
  if opensComponent (← current) then return .heading ⟨attributes, ← spanSince first⟩
  else
    let texts ← texts embedded
    let options ← repeatWhile fun token =>
      if token.kind = .endOfInput || opensComponent token then none else some (answerOption embedded)
    let (columns, rows) := options.partition AnswerOption.isColumn
    return .question ⟨texts, attributes, rows, columns, ← spanSince first⟩

def interlude (statement : Rule Statement) : Rule Component := do
  let first ← expect .logicOpen
  let statements ← repeatWhile fun token =>
    if token.kind = .logicClose then none
    else if token.kind = .endOfInput then some (refuse (.expected TokenKind.logicClose.description token.found))
    else some statement
  let _ ← expect .logicClose
  return .interlude ⟨statements, ← spanSince first⟩

def component (maxNesting : Nat) : Rule Component := do
  let token ← current
  match token.kind with
  | .questionOpen => question (embedded (expression maxNesting))
  | .logicOpen => interlude (statement (maxNesting + 1))
  | _ => refuseUnexpected

def document (maxNesting : Nat) : Rule Document := do
  start
  return ⟨← repeatWhile fun token => if token.kind = .endOfInput then none else some (component maxNesting)⟩

end Rule

namespace Parser

/-- Reads a document, and leaves the parser where the reading ended. -/
def parse (parser : Parser) : Except Diagnostic Document × Parser :=
  match Rule.document parser.limits.maxNesting parser with
  | .ok document after => (.ok document, after)
  | .error diagnostic after => (.error diagnostic, after)

/-- The given number of readings, each going on where the one before it ended. -/
def parses (parser : Parser) : Nat → List (Except Diagnostic Document)
  | 0 => []
  | count + 1 => let (outcome, after) := parser.parse; outcome :: parses after count

end Parser

namespace Document

/-- The document that a source writes. -/
def parse (limits : Limits) (source : String) : Except Diagnostic Document := (Parser.ofSource limits source).parse.1

end Document

end Questionnaire
