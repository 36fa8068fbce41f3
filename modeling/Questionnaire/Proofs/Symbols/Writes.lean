import Questionnaire.Symbols.Declarations

/-! The names that a document writes: those it declares and those it assigns to. They are collected from the tree of
the document alone, in the order of the source but for what a walk takes in another order: texts before attributes,
rows before columns. The outlines of the document come to the same names in the same order. -/

namespace Questionnaire

/-- A name that is given a meaning or a value. -/
inductive Write where
  | declaration (name : Token)
  | assignment (target : Token)
deriving DecidableEq, Repr

namespace Write

def name : Write → Token
  | declaration name => name
  | assignment target => target

def fault : Write → Fault
  | declaration name => .redeclared name.text
  | assignment target => .readOnly target.text

/-- What is said of the write where the survey does not allow it. -/
def diagnostic (write : Write) : Diagnostic := ⟨write.fault, write.name.position⟩

/-- The words that say what cannot be done to the name. -/
def refusal : Write → String
  | declaration _ => "cannot be redeclared"
  | assignment _ => "is read-only"

theorem diagnostic_kind (write : Write) : write.diagnostic.kind = "Semantic" := by
  cases write <;> rfl

theorem diagnostic_message (write : Write) :
    write.diagnostic.message = write.name.text ++ " is managed by the survey and " ++ write.refusal := by
  cases write with
  | declaration name =>
      show name.text ++ _ = _
      rw [String.append_assoc]
      rfl
  | assignment target =>
      show target.text ++ _ = _
      rw [String.append_assoc]
      rfl

end Write

mutual

def Expr.writes : Expr → List Write
  | .binary left _ right _ => left.writes ++ right.writes
  | .assign target value _ => .assignment target :: value.writes
  | .property container _ _ => container.writes
  | .answered _ _ answers _ => Expr.allWrites answers
  | .symbol .. => []
  | .number .. => []
  | .string .. => []
  | .boolean .. => []
  | .undefined _ => []

def Expr.allWrites : List Expr → List Write
  | [] => []
  | expr :: exprs => expr.writes ++ Expr.allWrites exprs

end

def SimpleStatement.writes (statement : SimpleStatement) : List Write := statement.expression.writes

mutual

def Statement.writes : Statement → List Write
  | .simple statement => statement.writes
  | .rule name conditions action _ =>
    .declaration name :: (conditions.flatMap SimpleStatement.writes ++ action.writes)
  | .action name action _ => .declaration name :: action.writes
  | .conditionSet name conditions _ => .declaration name :: conditions.flatMap SimpleStatement.writes
  | .declaration name value _ => .declaration name :: value.toList.flatMap Expr.writes
  | .command _ arguments _ => arguments.flatMap Expr.writes
  | .evaluate .. => []
  | .perform .. => []

def Block.writes : Block → List Write
  | ⟨statements, _⟩ => Statement.allWrites statements

def Statement.allWrites : List Statement → List Write
  | [] => []
  | statement :: statements => statement.writes ++ Statement.allWrites statements

end

def TextPart.writes : TextPart → List Write
  | .text _ => []
  | .embedded statement => statement.writes

def AttributeValue.writes : AttributeValue → List Write
  | .string _ => []
  | .embedded statement => statement.writes

def Attribute.writes (owned : Attribute) : List Write := owned.value.toList.flatMap AttributeValue.writes

def AnswerOption.writes (option : AnswerOption) : List Write :=
  option.texts.flatMap TextPart.writes ++ option.attributes.flatMap Attribute.writes

def Component.writes : Component → List Write
  | .question q =>
    q.texts.flatMap TextPart.writes ++ q.attributes.flatMap Attribute.writes ++
      q.rows.flatMap AnswerOption.writes ++ q.columns.flatMap AnswerOption.writes
  | .heading h => h.attributes.flatMap Attribute.writes
  | .interlude i => i.statements.flatMap Statement.writes

def Document.writes (document : Document) : List Write := document.components.flatMap Component.writes

/-- What a node writes by itself, whatever the nodes below it write. -/
def Node.write? : Node → Option Write
  | .statement s => s.declared?.map fun declared => .declaration declared.1
  | .expression (.assign target _ _) => some (.assignment target)
  | _ => none

namespace Outline

mutual

def writes : Outline → List Write
  | mk node children => node.write?.toList ++ allWrites children

def allWrites : List Outline → List Write
  | [] => []
  | outline :: outlines => outline.writes ++ allWrites outlines

end

theorem allWrites_eq_flatMap (outlines : List Outline) : allWrites outlines = outlines.flatMap writes := by
  induction outlines with
  | nil => rfl
  | cons outline outlines ih => rw [allWrites, ih, List.flatMap_cons]

mutual

theorem filterMap_visits (place : Place) (outline : Outline) :
    (outline.visits place).filterMap (fun visit => visit.2.write?) = outline.writes := by
  cases outline with
  | mk node children =>
      rw [visits, writes, ← filterMap_visitsFrom place 0 children]
      rw [List.filterMap_cons]
      cases h : node.write? with
      | none => rfl
      | some write => rfl

theorem filterMap_visitsFrom (place : Place) (index : Nat) (outlines : List Outline) :
    (visitsFrom place index outlines).filterMap (fun visit => visit.2.write?) = allWrites outlines := by
  cases outlines with
  | nil => rfl
  | cons outline outlines =>
      rw [visitsFrom, allWrites, List.filterMap_append, filterMap_visits (index :: place) outline,
        filterMap_visitsFrom place (index + 1) outlines]

end

@[simp] theorem writes_mk (node : Node) (children : List Outline) :
    (mk node children).writes = node.write?.toList ++ children.flatMap writes := by
  rw [writes, allWrites_eq_flatMap]

@[simp] theorem writes_ofName (token : Token) : (ofName token).writes = [] := rfl

mutual

theorem writes_ofExpr (expr : Expr) : (ofExpr expr).writes = expr.writes := by
  cases expr with
  | binary left op right span =>
      simp [ofExpr, Node.write?, Expr.writes, writes_ofExpr left, writes_ofExpr right]
  | assign target value span => simp [ofExpr, Node.write?, Expr.writes, writes_ofExpr value]
  | property container name span => simp [ofExpr, Node.write?, Expr.writes, writes_ofExpr container]
  | answered question mode answers span =>
      simp [ofExpr, Node.write?, Expr.writes, writes_ofExprs answers]
  | symbol name span => rfl
  | number value span => rfl
  | string value span => rfl
  | boolean value span => rfl
  | undefined span => rfl

theorem writes_ofExprs (exprs : List Expr) : (ofExprs exprs).flatMap writes = Expr.allWrites exprs := by
  cases exprs with
  | nil => rfl
  | cons expr exprs => rw [ofExprs, Expr.allWrites, List.flatMap_cons, writes_ofExpr expr, writes_ofExprs exprs]

end

theorem writes_ofSimple (statement : SimpleStatement) : (ofSimple statement).writes = statement.writes := by
  simp [ofSimple, Node.write?, Statement.declared?, writes_ofExpr, SimpleStatement.writes]

/-- Outlines side by side write what their parts write, if every outline does. -/
theorem flatMap_writes_map {α : Type} {outlineOf : α → Outline} {writesOf : α → List Write}
    (h : ∀ part, (outlineOf part).writes = writesOf part) (parts : List α) :
    (parts.map outlineOf).flatMap writes = parts.flatMap writesOf := by
  have hsame : (fun part => (outlineOf part).writes) = writesOf := funext h
  rw [List.flatMap_map, hsame]

mutual

theorem writes_ofStatement (statement : Statement) : (ofStatement statement).writes = statement.writes := by
  cases statement with
  | simple statement => exact writes_ofSimple statement
  | rule name conditions action span =>
      simp [ofStatement, Node.write?, Statement.declared?, Statement.writes, writes_ofBlock action,
        flatMap_writes_map writes_ofSimple]
  | action name action span =>
      simp [ofStatement, Node.write?, Statement.declared?, Statement.writes, writes_ofBlock action]
  | conditionSet name conditions span =>
      simp [ofStatement, Node.write?, Statement.declared?, Statement.writes,
        flatMap_writes_map writes_ofSimple]
  | declaration name value span =>
      cases value with
      | none => rfl
      | some value => simp [ofStatement, Node.write?, Statement.declared?, Statement.writes, writes_ofExpr]
  | command name arguments span =>
      simp [ofStatement, Node.write?, Statement.declared?, Statement.writes,
        flatMap_writes_map writes_ofExpr]
  | evaluate target span => rfl
  | perform target span => rfl

theorem writes_ofBlock (block : Block) : (ofBlock block).writes = block.writes := by
  cases block with
  | mk statements span =>
      simp [ofBlock, Node.write?, Block.writes, writes_ofStatements statements]

theorem writes_ofStatements (statements : List Statement) :
    (ofStatements statements).flatMap writes = Statement.allWrites statements := by
  cases statements with
  | nil => rfl
  | cons statement statements =>
      rw [ofStatements, Statement.allWrites, List.flatMap_cons, writes_ofStatement statement,
        writes_ofStatements statements]

end

theorem writes_ofText (part : TextPart) : (ofText part).writes = part.writes := by
  cases part with
  | text token => rfl
  | embedded statement => exact writes_ofSimple statement

theorem writes_ofAttribute (owned : Attribute) : (ofAttribute owned).writes = owned.writes := by
  rw [ofAttribute, writes_mk, Attribute.writes]
  cases owned.value with
  | none => rfl
  | some value =>
      cases value with
      | string token => rfl
      | embedded statement => simp [Node.write?, AttributeValue.writes, writes_ofSimple]

theorem writes_ofRow (option : AnswerOption) : (ofRow option).writes = option.writes := by
  simp [ofRow, Node.write?, AnswerOption.writes, flatMap_writes_map writes_ofText,
    flatMap_writes_map writes_ofAttribute]

theorem writes_ofColumn (option : AnswerOption) : (ofColumn option).writes = option.writes := by
  simp [ofColumn, Node.write?, AnswerOption.writes, flatMap_writes_map writes_ofText,
    flatMap_writes_map writes_ofAttribute]

theorem writes_ofComponent (component : Component) : (ofComponent component).writes = component.writes := by
  cases component with
  | question q =>
      simp [ofComponent, Node.write?, Component.writes, flatMap_writes_map writes_ofText,
        flatMap_writes_map writes_ofAttribute, flatMap_writes_map writes_ofRow, flatMap_writes_map writes_ofColumn]
  | heading h => simp [ofComponent, Node.write?, Component.writes, flatMap_writes_map writes_ofAttribute]
  | interlude i =>
      simp [ofComponent, Node.write?, Component.writes, flatMap_writes_map writes_ofStatement]

end Outline

namespace Document

theorem allWrites_outlines (document : Document) : Outline.allWrites document.outlines = document.writes := by
  rw [Outline.allWrites_eq_flatMap]
  exact Outline.flatMap_writes_map Outline.writes_ofComponent document.components

/-- The order of the writes is that of a walk. -/
theorem filterMap_nodes (document : Document) : document.nodes.filterMap Node.write? = document.writes := by
  rw [nodes, List.filterMap_map, ← allWrites_outlines]
  exact Outline.filterMap_visitsFrom [] 0 document.outlines

end Document

end Questionnaire
