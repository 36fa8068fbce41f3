import Questionnaire.Document.Basic

/-! The nodes of a document and the order they are come to. An outline is a node above the outlines of its
children: texts come before attributes, rows before columns, conditions before the block they guard, and all
else as it is read. A node is told from its equals by its place, the way down to it. -/

namespace Questionnaire

inductive Node where
  | question (question : Question)
  | heading (heading : Section)
  | interlude (interlude : Interlude)
  | row (option : AnswerOption)
  | column (option : AnswerOption)
  | attr (owned : Attribute)
  | text (token : Token)
  | statement (statement : Statement)
  | block (block : Block)
  | expression (expr : Expr)
deriving Inhabited

namespace Node

/-- A name that stands for itself. -/
def name (token : Token) : Node := .expression (.symbol token (.single token))

/-- The first and the last token of a node. A name in brackets is bounded by the name. -/
def bounds : Node → Span
  | question q => q.span
  | heading h => h.span
  | interlude i => i.span
  | row o => o.span
  | column o => o.span
  | attr a => a.span
  | text token => .single token
  | statement s => s.span
  | block b => b.span
  | expression (.symbol token _) => .single token
  | expression e => e.span

def position (node : Node) : Position := node.bounds.first.position

end Node

/-- The index of a node among the children of the node above it, then the place of that one. The indices of the
components come last. -/
abbrev Place := List Nat

inductive Outline where
  | mk (node : Node) (children : List Outline)
deriving Inhabited

namespace Outline

def node : Outline → Node
  | mk node _ => node

def children : Outline → List Outline
  | mk _ children => children

def ofName (token : Token) : Outline := .mk (.name token) []

mutual

def ofExpr : Expr → Outline
  | .binary left op right span => .mk (.expression (.binary left op right span)) [ofExpr left, ofExpr right]
  | .assign target value span => .mk (.expression (.assign target value span)) [ofName target, ofExpr value]
  | .property container name span => .mk (.expression (.property container name span)) [ofExpr container]
  | .answered question mode answers span =>
    .mk (.expression (.answered question mode answers span)) (ofName question :: ofExprs answers)
  | .symbol name span => .mk (.expression (.symbol name span)) []
  | .number value span => .mk (.expression (.number value span)) []
  | .string value span => .mk (.expression (.string value span)) []
  | .boolean value span => .mk (.expression (.boolean value span)) []
  | .undefined span => .mk (.expression (.undefined span)) []

def ofExprs : List Expr → List Outline
  | [] => []
  | expr :: exprs => ofExpr expr :: ofExprs exprs

end

theorem ofExprs_eq_map (exprs : List Expr) : ofExprs exprs = exprs.map ofExpr := by
  induction exprs with
  | nil => rfl
  | cons expr exprs ih => simp [ofExprs, ih]

def ofSimple (statement : SimpleStatement) : Outline :=
  .mk (.statement (.simple statement)) [ofExpr statement.expression]

mutual

def ofStatement : Statement → Outline
  | .simple statement => ofSimple statement
  | .rule name conditions action span =>
    .mk (.statement (.rule name conditions action span)) (conditions.map ofSimple ++ [ofBlock action])
  | .action name action span => .mk (.statement (.action name action span)) [ofBlock action]
  | .conditionSet name conditions span =>
    .mk (.statement (.conditionSet name conditions span)) (conditions.map ofSimple)
  | .declaration name value span => .mk (.statement (.declaration name value span)) (value.map ofExpr).toList
  | .command name arguments span => .mk (.statement (.command name arguments span)) (arguments.map ofExpr)
  | .evaluate target span => .mk (.statement (.evaluate target span)) [ofName target]
  | .perform target span => .mk (.statement (.perform target span)) [ofName target]

def ofBlock : Block → Outline
  | .mk statements span => .mk (.block (.mk statements span)) (ofStatements statements)

def ofStatements : List Statement → List Outline
  | [] => []
  | statement :: statements => ofStatement statement :: ofStatements statements

end

theorem ofStatements_eq_map (statements : List Statement) :
    ofStatements statements = statements.map ofStatement := by
  induction statements with
  | nil => rfl
  | cons statement statements ih => simp [ofStatements, ih]

def ofText : TextPart → Outline
  | .text token => .mk (.text token) []
  | .embedded statement => ofSimple statement

def ofAttribute (owned : Attribute) : Outline :=
  .mk (.attr owned) <|
    match owned.value with
    | some (.embedded statement) => [ofSimple statement]
    | some (.string _) => []
    | none => []

def ofRow (option : AnswerOption) : Outline :=
  .mk (.row option) (option.texts.map ofText ++ option.attributes.map ofAttribute)

def ofColumn (option : AnswerOption) : Outline :=
  .mk (.column option) (option.texts.map ofText ++ option.attributes.map ofAttribute)

def ofComponent : Component → Outline
  | .question q =>
    .mk (.question q)
      (q.texts.map ofText ++ q.attributes.map ofAttribute ++ q.rows.map ofRow ++ q.columns.map ofColumn)
  | .heading h => .mk (.heading h) (h.attributes.map ofAttribute)
  | .interlude i => .mk (.interlude i) (i.statements.map ofStatement)

mutual

/-- The nodes below a place, each before its children. -/
def visits (place : Place) : Outline → List (Place × Node)
  | mk node children => (place, node) :: visitsFrom place 0 children

def visitsFrom (place : Place) (index : Nat) : List Outline → List (Place × Node)
  | [] => []
  | outline :: outlines => outline.visits (index :: place) ++ visitsFrom place (index + 1) outlines

end

end Outline

namespace Document

/-- The outlines of the components. -/
def outlines (document : Document) : List Outline := document.components.map Outline.ofComponent

/-- All nodes of a document in the order of a walk. -/
def visits (document : Document) : List (Place × Node) := Outline.visitsFrom [] 0 document.outlines

def nodes (document : Document) : List Node := document.visits.map Prod.snd

end Document

end Questionnaire
