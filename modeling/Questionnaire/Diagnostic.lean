import Questionnaire.Position

/-! What can be wrong with a survey document, and where. Faults in its form are found while it is read,
faults in its meaning once it has been read. -/

namespace Questionnaire

inductive Fault where
  -- the characters
  | unexpectedCharacter (c : Char)
  | attributeNameMissing
  | nestedEmbedding
  | embeddingInLogic
  | unterminatedString
  | invalidNumber (literal : String)
  -- the tokens
  | expected (what found : String)
  | unexpectedToken (found : String)
  | invalidAttributeName (found : String)
  | invalidAttributeValue (found : String)
  | invalidAssignment
  | invalidProperty
  | tooDeep
  | streamEnded
  -- the structure of questions and options
  | unnamed (owner : String)
  | severalNames (names : List String)
  | unrecognisedAttribute (name : String)
  | notForOptions (name : String)
  | duplicateAttribute (name : String)
  | exclusiveAttributes (names : List String)
  | questionTypeMissing
  | rowsNotAllowed (type : String)
  | columnsNotAllowed (type : String)
  | notForType (name type : String)
  | xorOnMatrixRow
  | allOnMatrixRow
  -- the values of attributes
  | orderWithText (name : String)
  | boundNotInteger (name : String)
  | boundMissing (name : String)
  | dataWithoutText
  -- the names of the survey
  | redeclared (name : String)
  | readOnly (name : String)
  /-- A fault in the words of whoever supplied the tokens. -/
  | reported (semantic : Bool) (message : String)
deriving DecidableEq, Inhabited, Repr

namespace Fault

/-- Whether the fault lies in the meaning of a document that is well formed. -/
def isSemantic : Fault → Bool
  | .unnamed _ | .severalNames _ | .unrecognisedAttribute _ | .notForOptions _ | .duplicateAttribute _
  | .exclusiveAttributes _ | .questionTypeMissing | .rowsNotAllowed _ | .columnsNotAllowed _ | .notForType ..
  | .xorOnMatrixRow | .allOnMatrixRow | .orderWithText _ | .boundNotInteger _ | .boundMissing _
  | .dataWithoutText | .redeclared _ | .readOnly _ => true
  | .reported semantic _ => semantic
  | _ => false

def message : Fault → String
  | .unexpectedCharacter c => "Unexpected character '" ++ c.toString ++ "'"
  | .attributeNameMissing => "expecting attribute name after '@'"
  | .nestedEmbedding => "nested embedded expressions are not supported"
  | .embeddingInLogic => "embedded expressions are not allowed inside logic blocks"
  | .unterminatedString => "Unterminated string constant"
  | .invalidNumber literal => "Invalid number literal: " ++ literal
  | .expected what found => "expecting " ++ what ++ " but found " ++ found
  | .unexpectedToken found => "unexpected token: " ++ found
  | .invalidAttributeName found => "Invalid attribute name " ++ found
  | .invalidAttributeValue found =>
    "value of an attribute must be either a string or an embedded expression, but found " ++ found
  | .invalidAssignment => "Invalid assignment"
  | .invalidProperty => "invalid property name"
  | .tooDeep => "nesting too deep"
  | .streamEnded => "token stream ended before end of input"
  | .unnamed owner => owner ++ " has no name"
  | .severalNames names => "more than one name found: " ++ ", ".intercalate names
  | .unrecognisedAttribute name => name ++ " is not a recognised attribute"
  | .notForOptions name => name ++ " does not apply to option"
  | .duplicateAttribute name => "Duplicate attributes: " ++ name
  | .exclusiveAttributes names => "Duplicate kinds of attributes: " ++ ", ".intercalate names
  | .questionTypeMissing => "You need to specify question type"
  | .rowsNotAllowed type => type ++ " questions cannot have rows"
  | .columnsNotAllowed type => type ++ " questions cannot have columns"
  | .notForType name type => name ++ " does not apply to " ++ type ++ " questions"
  | .xorOnMatrixRow => "xor attribute does not apply to rows in matrix questions"
  | .allOnMatrixRow => "'all' attribute does not apply to rows in matrix questions"
  | .orderWithText name => name ++ " either does not have value or has a simple expression as value"
  | .boundNotInteger name => "cannot parse the value of " ++ name ++ " to an integer"
  | .boundMissing name => name ++ " needs to have a string or a simple expression as value"
  | .dataWithoutText => "data needs to have a string as value"
  | .redeclared name => name ++ " is managed by the survey and cannot be redeclared"
  | .readOnly name => name ++ " is managed by the survey and is read-only"
  | .reported _ message => message

end Fault

/-- A fault and the place of the character or token to blame. -/
structure Diagnostic where
  fault : Fault
  position : Position
deriving DecidableEq, Inhabited, Repr

namespace Diagnostic

def kind (diagnostic : Diagnostic) : String := if diagnostic.fault.isSemantic then "Semantic" else "Syntax"

def message (diagnostic : Diagnostic) : String := diagnostic.fault.message

def display (diagnostic : Diagnostic) : String :=
  s!"[line {diagnostic.position.line}, column {diagnostic.position.column}] " ++ diagnostic.kind ++ " error: " ++
    diagnostic.message

end Diagnostic

end Questionnaire
