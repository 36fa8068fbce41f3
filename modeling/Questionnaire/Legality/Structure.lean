import Questionnaire.Legality.Vocabulary
import Questionnaire.Walk.Outline
import Questionnaire.Diagnostic

/-! The structure of questions and options: the name of each, and which attributes, rows and columns go
together. The rules are tried in a fixed order, and the first one broken is reported. -/

namespace Questionnaire

/-- A rule that is kept, or the fault and the place where it is broken. -/
abbrev Verdict := Except Diagnostic Unit

namespace Legality

def fault (fault : Fault) (token : Token) : Verdict := .error ⟨fault, token.position⟩

/-- Exactly one custom attribute names the owner. -/
def named (owner : String) (attributes : List Attribute) (span : Span) : Verdict :=
  let names := attributes.filter fun a => a.custom
  match names with
  | [] => fault (.unnamed owner) span.first
  | [_] => .ok ()
  | _ :: second :: _ => fault (.severalNames (names.map Attribute.name)) second.span.first

/-- The built-in attributes all pass the test. -/
def allowed (test : String → Bool) (complaint : String → Fault) (attributes : List Attribute) : Verdict :=
  match (Attribute.builtin attributes).find? fun a => !test a.name with
  | some stranger => fault (complaint stranger.name) stranger.span.first
  | none => .ok ()

def recognised (attributes : List Attribute) : Verdict :=
  allowed Vocabulary.isAttribute .unrecognisedAttribute attributes

/-- No two attributes have the same name; the names already seen come first. -/
def distinctAfter (seen : List String) : List Attribute → Verdict
  | [] => .ok ()
  | a :: others =>
    if seen.contains a.name then fault (.duplicateAttribute a.name) a.span.first
    else distinctAfter (a.name :: seen) others

def distinct (attributes : List Attribute) : Verdict := distinctAfter [] attributes

/-- At most one built-in attribute belongs to the group. -/
def exclusive (group : List String) (attributes : List Attribute) : Verdict :=
  let present := (Attribute.builtin attributes).filter fun a => group.contains a.name
  match present with
  | _ :: second :: _ => fault (.exclusiveAttributes (present.map Attribute.name)) second.span.first
  | _ => .ok ()

/-- No built-in attribute belongs to the group. -/
def forbidden (group : List String) (type : QuestionType) (attributes : List Attribute) : Verdict :=
  allowed (fun name => !group.contains name) (fun name => .notForType name type.keyword) attributes

def noOptions (complaint : Fault) : List AnswerOption → Verdict
  | [] => .ok ()
  | first :: _ => fault complaint first.span.first

def typeOf? (attributes : List Attribute) : Option QuestionType :=
  (Attribute.builtin attributes).findSome? fun a => QuestionType.ofKeyword? a.name

/-- A row of a matrix does not exclude the others. -/
def matrixRow (row : AnswerOption) : Verdict :=
  (Attribute.builtin row.attributes).forM fun a =>
    if a.name = "xor" then fault .xorOnMatrixRow a.span.first
    else if a.name = "all" then fault .allOnMatrixRow a.span.first
    else .ok ()

/-- The rows, columns and attributes that the type of a question calls for. -/
def typed (type : QuestionType) (q : Question) : Verdict := do
  if type.isOpenEnded then
    noOptions (.rowsNotAllowed type.keyword) q.rows
    forbidden Vocabulary.rowOrders type q.attributes
  if !type.isMatrix then
    noOptions (.columnsNotAllowed type.keyword) q.columns
    forbidden Vocabulary.columnOrders type q.attributes
  if type.isOpenEnded then
    forbidden Vocabulary.selectionBounds type q.attributes
    forbidden Vocabulary.valueBounds type q.attributes
  if type.isMatrix then q.rows.forM matrixRow

def question (q : Question) : Verdict := do
  named "Question" q.attributes q.span
  recognised q.attributes
  distinct q.attributes
  exclusive Vocabulary.rowOrders q.attributes
  exclusive Vocabulary.columnOrders q.attributes
  exclusive Vocabulary.questionTypes q.attributes
  match typeOf? q.attributes with
  | some type => typed type q
  | none => fault .questionTypeMissing q.span.first

def heading (h : Section) : Verdict := do
  recognised h.attributes
  distinct h.attributes

def answerOption (owner : String) (option : AnswerOption) : Verdict := do
  named owner option.attributes option.span
  allowed Vocabulary.optionAttributes.contains .notForOptions option.attributes
  distinct option.attributes
  exclusive Vocabulary.optionChoices option.attributes

/-- The rules of structure for a node. -/
def structural (node : Node) : Verdict :=
  match node with
  | .question q => question q
  | .heading h => heading h
  | .row option => answerOption "Row" option
  | .column option => answerOption "Column" option
  | _ => .ok ()

end Legality

end Questionnaire
