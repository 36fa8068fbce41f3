import Questionnaire.Token.Basic
import Questionnaire.Document.Operator
import Questionnaire.Number.Double

/-! The tree of a survey document. Every node keeps the first and the last token it was read from. The target
of an assignment is a name, so that no member of a question can be assigned to. -/

namespace Questionnaire

structure Span where
  first : Token
  last : Token
deriving DecidableEq, Inhabited, Repr

/-- The span of a node that is one token. -/
def Span.single (token : Token) : Span := ⟨token, token⟩

inductive Expr where
  | binary (left : Expr) (op : BinaryOp) (right : Expr) (span : Span)
  | assign (target : Token) (value : Expr) (span : Span)
  | symbol (name : Token) (span : Span)
  /-- A member of a question, a row or a column. -/
  | property (container : Expr) (name : Token) (span : Span)
  | number (value : Double) (span : Span)
  | string (value : String) (span : Span)
  | boolean (value : Bool) (span : Span)
  | undefined (span : Span)
  /-- Whether a question was answered in a certain way. -/
  | answered (question : Token) (mode : AnswerMode) (answers : List Expr) (span : Span)
deriving Inhabited, Repr

namespace Expr

def span : Expr → Span
  | binary _ _ _ span => span
  | assign _ _ span => span
  | symbol _ span => span
  | property _ _ span => span
  | number _ span => span
  | string _ span => span
  | boolean _ span => span
  | undefined span => span
  | answered _ _ _ span => span

/-- The same expression, read from other tokens. -/
def withSpan (span : Span) : Expr → Expr
  | binary left op right _ => binary left op right span
  | assign target value _ => assign target value span
  | symbol name _ => symbol name span
  | property container name _ => property container name span
  | number value _ => number value span
  | string value _ => string value span
  | boolean value _ => boolean value span
  | undefined _ => undefined span
  | answered question mode answers _ => answered question mode answers span

/-- A name, or a member of something. -/
def isReference : Expr → Bool
  | symbol .. => true
  | property .. => true
  | _ => false

@[simp] theorem span_withSpan (expr : Expr) (span : Span) : (expr.withSpan span).span = span := by
  cases expr <;> rfl

end Expr

/-- An expression that stands by itself: as a statement, as a condition, or embedded in a text. -/
structure SimpleStatement where
  expression : Expr
  span : Span
deriving Inhabited, Repr

mutual

inductive Statement where
  | simple (statement : SimpleStatement)
  | rule (name : Token) (conditions : List SimpleStatement) (action : Block) (span : Span)
  | action (name : Token) (action : Block) (span : Span)
  | conditionSet (name : Token) (conditions : List SimpleStatement) (span : Span)
  | declaration (name : Token) (value : Option Expr) (span : Span)
  | command (name : Token) (arguments : List Expr) (span : Span)
  | evaluate (target : Token) (span : Span)
  | perform (target : Token) (span : Span)

/-- Statements between braces. -/
inductive Block where
  | mk (statements : List Statement) (span : Span)

end

instance : Inhabited Block := ⟨⟨[], default⟩⟩

instance : Inhabited Statement := ⟨.evaluate default default⟩

def Block.statements : Block → List Statement
  | ⟨statements, _⟩ => statements

def Block.span : Block → Span
  | ⟨_, span⟩ => span

def Statement.span : Statement → Span
  | simple statement => statement.span
  | rule _ _ _ span => span
  | action _ _ span => span
  | conditionSet _ _ span => span
  | declaration _ _ span => span
  | command _ _ span => span
  | evaluate _ span => span
  | perform _ span => span

/-- One piece of the text of a question or an option. -/
inductive TextPart where
  | text (token : Token)
  | embedded (statement : SimpleStatement)
deriving Inhabited, Repr

inductive AttributeValue where
  | string (token : Token)
  | embedded (statement : SimpleStatement)
deriving Inhabited, Repr

/-- A bare name is a custom attribute and names its owner; the others are known to the language. -/
structure Attribute where
  name : String
  value : Option AttributeValue
  custom : Bool
  span : Span
deriving Inhabited, Repr

/-- A row or a column of a question. -/
structure AnswerOption where
  texts : List TextPart
  attributes : List Attribute
  span : Span
deriving Inhabited, Repr

structure Question where
  texts : List TextPart
  attributes : List Attribute
  rows : List AnswerOption
  columns : List AnswerOption
  span : Span
deriving Inhabited, Repr

/-- Attributes that no text follows. -/
structure Section where
  attributes : List Attribute
  span : Span
deriving Inhabited, Repr

/-- Statements between components of the survey. -/
structure Interlude where
  statements : List Statement
  span : Span
deriving Inhabited

inductive Component where
  | question (question : Question)
  | heading (heading : Section)
  | interlude (interlude : Interlude)
deriving Inhabited

def Component.span : Component → Span
  | .question q => q.span
  | .heading h => h.span
  | .interlude i => i.span

structure Document where
  components : List Component
deriving Inhabited

namespace Attribute

def builtin (attributes : List Attribute) : List Attribute := attributes.filter fun a => !a.custom

def find? (attributes : List Attribute) (name : String) : Option Attribute :=
  attributes.find? fun a => a.name == name

/-- The name that the attributes give their owner: that of the custom one, if there is exactly one. -/
def ownerName? (attributes : List Attribute) : Option String :=
  match attributes.filter fun a => a.custom with
  | [only] => some only.name
  | _ => none

end Attribute

def Question.name? (question : Question) : Option String := Attribute.ownerName? question.attributes

def Section.name? (heading : Section) : Option String := Attribute.ownerName? heading.attributes

def AnswerOption.name? (option : AnswerOption) : Option String := Attribute.ownerName? option.attributes

/-- Columns are marked by a built-in attribute; all other options are rows. -/
def AnswerOption.isColumn (option : AnswerOption) : Bool :=
  (Attribute.builtin option.attributes).any fun a => a.name == "col"

end Questionnaire
