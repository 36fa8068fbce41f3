import Questionnaire.Document.Basic
import Questionnaire.Number.Written
import Questionnaire.Json.Basic

/-! Documents as data. A node is an object with its parts in a fixed order, under the name of its form where
there are several. How tokens and numbers are written is left open. -/

namespace Questionnaire

structure Encoding where
  token : Token → Json
  number : Double → Json

namespace Encoding

def span (encoding : Encoding) (span : Span) : Json :=
  .object [("start", encoding.token span.first), ("end", encoding.token span.last)]

/-- A name that refers to something. -/
def reference (encoding : Encoding) (token : Token) : Json := .object [("token", encoding.token token)]

/-- What an expression is, and where. -/
def spanned (encoding : Encoding) (span : Span) (kind : Json) : Json :=
  .object [("kind", kind), ("span", encoding.span span)]

mutual

def expression (encoding : Encoding) : Expr → Json
  | .binary left op right span => encoding.spanned span <| .tagged "Binary" <| .object
      [("left", expression encoding left), ("op", .string op.lexeme), ("right", expression encoding right)]
  | .assign target value span => encoding.spanned span <| .tagged "Assign" <| .object
      [("target", encoding.reference target), ("value", expression encoding value)]
  | .symbol name span => encoding.spanned span <| .tagged "Symbol" (encoding.reference name)
  | .property container name span => encoding.spanned span <| .tagged "PropertyAccess" <| .object
      [("container", expression encoding container), ("property", encoding.token name)]
  | .number value span => encoding.spanned span <| .tagged "Number" (encoding.number value)
  | .string value span => encoding.spanned span <| .tagged "String" (.string value)
  | .boolean value span => encoding.spanned span <| .tagged "Boolean" (.boolean value)
  | .undefined span => encoding.spanned span <| .string "Undefined"
  | .answered question mode answers span => encoding.spanned span <| .tagged "HasAnswer" <| .object
      [("question", encoding.reference question), ("mode", .string mode.keyword),
        ("answers", .array (expressions encoding answers))]

def expressions (encoding : Encoding) : List Expr → List Json
  | [] => []
  | expr :: exprs => expression encoding expr :: expressions encoding exprs

end

def simple (encoding : Encoding) (statement : SimpleStatement) : Json :=
  .object [("expression", encoding.expression statement.expression), ("span", encoding.span statement.span)]

mutual

def statement (encoding : Encoding) : Statement → Json
  | .simple statement => .tagged "Simple" (encoding.simple statement)
  | .rule name conditions action span => .tagged "Rule" <| .object
      [("name", encoding.token name), ("conditions", .array (conditions.map encoding.simple)),
        ("action", block encoding action), ("span", encoding.span span)]
  | .action name action span => .tagged "Action" <| .object
      [("name", encoding.token name), ("action", block encoding action), ("span", encoding.span span)]
  | .conditionSet name conditions span => .tagged "ConditionSet" <| .object
      [("name", encoding.token name), ("conditions", .array (conditions.map encoding.simple)),
        ("span", encoding.span span)]
  | .declaration name value span => .tagged "Declaration" <| .object
      [("name", encoding.token name), ("initializer", .optional encoding.expression value),
        ("span", encoding.span span)]
  | .command name arguments span => .tagged "Command" <| .object
      [("name", encoding.token name), ("args", .array (arguments.map encoding.expression)),
        ("span", encoding.span span)]
  | .evaluate target span => .tagged "Evaluate" <| .object
      [("target", encoding.reference target), ("span", encoding.span span)]
  | .perform target span => .tagged "Do" <| .object
      [("target", encoding.reference target), ("span", encoding.span span)]

def block (encoding : Encoding) : Block → Json
  | .mk list span => .object [("statements", .array (statements encoding list)), ("span", encoding.span span)]

def statements (encoding : Encoding) : List Statement → List Json
  | [] => []
  | first :: others => statement encoding first :: statements encoding others

end

def textPart (encoding : Encoding) : TextPart → Json
  | .text token => .tagged "Text" (encoding.token token)
  | .embedded statement => .tagged "Embedded" (encoding.simple statement)

def attributeValue (encoding : Encoding) : AttributeValue → Json
  | .string token => .tagged "Str" (encoding.token token)
  | .embedded statement => .tagged "Embedded" (encoding.simple statement)

def oneAttribute (encoding : Encoding) (owned : Attribute) : Json :=
  .object
    [("name", .string owned.name), ("value", .optional encoding.attributeValue owned.value),
      ("is_custom", .boolean owned.custom), ("span", encoding.span owned.span)]

def texts (encoding : Encoding) (texts : List TextPart) : Json := .array (texts.map encoding.textPart)

def attributes (encoding : Encoding) (attributes : List Attribute) : Json :=
  .array (attributes.map encoding.oneAttribute)

def answerOption (encoding : Encoding) (option : AnswerOption) : Json :=
  .object
    [("texts", encoding.texts option.texts), ("attributes", encoding.attributes option.attributes),
      ("span", encoding.span option.span)]

def component (encoding : Encoding) : Component → Json
  | .question q => .tagged "Question" <| .object
      [("texts", encoding.texts q.texts), ("attributes", encoding.attributes q.attributes),
        ("rows", .array (q.rows.map encoding.answerOption)),
        ("columns", .array (q.columns.map encoding.answerOption)), ("span", encoding.span q.span)]
  | .heading h => .tagged "Section" <| .object
      [("attributes", encoding.attributes h.attributes), ("span", encoding.span h.span)]
  | .interlude i => .tagged "Interlude" <| .object
      [("statements", .array (i.statements.map encoding.statement)), ("span", encoding.span i.span)]

def document (encoding : Encoding) (document : Document) : Json :=
  .object [("components", .array (document.components.map encoding.component))]

/-- Tokens with their positions, and numbers as numbers, except that one which is not finite is null. -/
def standard : Encoding where
  token := fun token => .object
    [("kind", .string token.kind.name), ("text", .string token.text),
      ("position", .object [("line", .natural token.position.line), ("column", .natural token.position.column)])]
  number := fun value => .optional .number value.interchangeText?

end Encoding

end Questionnaire
