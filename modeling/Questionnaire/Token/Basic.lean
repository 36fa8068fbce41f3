import Questionnaire.Position
import Questionnaire.Text.Quoted

/-! Tokens: a kind, a text and a place. The text is the lexeme itself, except that a string literal carries
what it denotes, a stretch of free text is trimmed, and an attribute goes without its mark. -/

namespace Questionnaire

inductive TokenKind where
  | string
  | identifier
  | number
  | punctuation
  | operator
  | endOfInput
  | keyword
  | callKeyword
  | valueKeyword
  | textRun
  | attributeKeyword
  | questionOpen
  | questionClose
  | optionOpen
  | optionClose
  | embeddedOpen
  | embeddedClose
  | logicOpen
  | logicClose
deriving DecidableEq, Inhabited, Repr

namespace TokenKind

def all : List TokenKind :=
  [.string, .identifier, .number, .punctuation, .operator, .endOfInput, .keyword, .callKeyword, .valueKeyword,
    .textRun, .attributeKeyword, .questionOpen, .questionClose, .optionOpen, .optionClose, .embeddedOpen,
    .embeddedClose, .logicOpen, .logicClose]

/-- The name of the kind in listings of tokens. -/
def name : TokenKind → String
  | .string => "String"
  | .identifier => "Identifier"
  | .number => "Number"
  | .punctuation => "Punctuation"
  | .operator => "Operator"
  | .endOfInput => "EndOfInput"
  | .keyword => "Keyword"
  | .callKeyword => "CallKeyword"
  | .valueKeyword => "ValueKeyword"
  | .textRun => "TextRun"
  | .attributeKeyword => "AttributeKeyword"
  | .questionOpen => "QuestionAttrStart"
  | .questionClose => "QuestionAttrEnd"
  | .optionOpen => "OptionAttrStart"
  | .optionClose => "OptionAttrEnd"
  | .embeddedOpen => "EmbeddedExprStart"
  | .embeddedClose => "EmbeddedExprEnd"
  | .logicOpen => "LogicBlockStart"
  | .logicClose => "LogicBlockEnd"

def ofName? (word : String) : Option TokenKind := all.find? fun kind => kind.name == word

/-- What a message says was expected when a token of the kind is missing. -/
def description : TokenKind → String
  | .string => "string"
  | .identifier => "identifier / name"
  | .number => "number"
  | .punctuation => "punctuation"
  | .operator => "operator"
  | .endOfInput => "end of input"
  | .keyword => "keyword"
  | .callKeyword => "command"
  | .valueKeyword => "value"
  | .textRun => "text"
  | .attributeKeyword => "attribute"
  | .questionOpen => "<<"
  | .questionClose => ">>"
  | .optionOpen => "["
  | .optionClose => "]"
  | .embeddedOpen => "$\x7b"
  | .embeddedClose => "\x7d"
  | .logicOpen => "<%"
  | .logicClose => "%>"

end TokenKind

structure Token where
  kind : TokenKind
  text : String
  position : Position
deriving DecidableEq, Inhabited, Repr

namespace Token

def hasKind (token : Token) (kind : TokenKind) : Bool := token.kind == kind

/-- Whether the token has the kind and spells the word. -/
def spells (token : Token) (kind : TokenKind) (word : String) : Bool := token.kind == kind && token.text == word

/-- How a message names the token that stands in the way. -/
def found (token : Token) : String := if token.kind = .endOfInput then "end of input" else token.text

def display (token : Token) : String :=
  token.kind.name ++ " " ++ Text.quoted token.text ++ " " ++ token.position.display

end Token

end Questionnaire
