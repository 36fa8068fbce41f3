import Questionnaire.Proofs.Document.Relocation
import Questionnaire.Walk.Outline

/-! The outline of a document does not depend on where the tokens stand. Relocated trees have relocated outlines, whose
nodes are come to in the same order and have the same places. -/

namespace Questionnaire

variable {move : Position → Position}

def Node.relocate (move : Position → Position) : Node → Node
  | .question q => .question (q.relocate move)
  | .heading h => .heading (h.relocate move)
  | .interlude i => .interlude (i.relocate move)
  | .row o => .row (o.relocate move)
  | .column o => .column (o.relocate move)
  | .attr a => .attr (a.relocate move)
  | .text token => .text (token.relocate move)
  | .statement s => .statement (s.relocate move)
  | .block b => .block (b.relocate move)
  | .expression e => .expression (e.relocate move)

namespace Outline

mutual

def relocate (move : Position → Position) : Outline → Outline
  | mk node children => mk (node.relocate move) (relocateAll move children)

def relocateAll (move : Position → Position) : List Outline → List Outline
  | [] => []
  | outline :: outlines => outline.relocate move :: relocateAll move outlines

end

theorem relocateAll_eq_map (outlines : List Outline) : relocateAll move outlines = outlines.map (relocate move) := by
  induction outlines with
  | nil => rfl
  | cons outline outlines ih => rw [relocateAll, ih, List.map_cons]

mutual

theorem visits_relocate (place : Place) (outline : Outline) :
    (outline.relocate move).visits place = (outline.visits place).map (Prod.map id (Node.relocate move)) := by
  cases outline with
  | mk node children => rw [relocate, visits, visits, visitsFrom_relocateAll place 0 children]; rfl

theorem visitsFrom_relocateAll (place : Place) (index : Nat) (outlines : List Outline) :
    visitsFrom place index (relocateAll move outlines) =
      (visitsFrom place index outlines).map (Prod.map id (Node.relocate move)) := by
  cases outlines with
  | nil => rfl
  | cons outline outlines =>
      rw [relocateAll, visitsFrom, visitsFrom, visits_relocate (index :: place) outline,
        visitsFrom_relocateAll place (index + 1) outlines, List.map_append]

end

mutual

theorem ofExpr_relocate (expr : Expr) : ofExpr (expr.relocate move) = (ofExpr expr).relocate move := by
  cases expr with
  | binary left op right span =>
      rw [Expr.relocate, ofExpr, ofExpr, ofExpr_relocate left, ofExpr_relocate right]
      rfl
  | assign target value span =>
      rw [Expr.relocate, ofExpr, ofExpr, ofExpr_relocate value]
      rfl
  | symbol name span => rfl
  | property container name span =>
      rw [Expr.relocate, ofExpr, ofExpr, ofExpr_relocate container]
      rfl
  | number value span => rfl
  | string value span => rfl
  | boolean value span => rfl
  | undefined span => rfl
  | answered question mode answers span =>
      rw [Expr.relocate, ofExpr, ofExpr, ofExprs_relocateAll answers]
      rfl

theorem ofExprs_relocateAll (exprs : List Expr) :
    ofExprs (Expr.relocateAll move exprs) = relocateAll move (ofExprs exprs) := by
  cases exprs with
  | nil => rfl
  | cons expr exprs =>
      rw [Expr.relocateAll, ofExprs, ofExprs, relocateAll, ofExpr_relocate expr, ofExprs_relocateAll exprs]

end

theorem map_relocate {α : Type} {relocated : α → α} {outlined : α → Outline}
    (h : ∀ value, outlined (relocated value) = (outlined value).relocate move) (values : List α) :
    (values.map relocated).map outlined = relocateAll move (values.map outlined) := by
  rw [relocateAll_eq_map, List.map_map, List.map_map]
  exact List.map_congr_left fun value _ => h value

theorem relocateAll_append (left right : List Outline) :
    relocateAll move (left ++ right) = relocateAll move left ++ relocateAll move right := by
  rw [relocateAll_eq_map, relocateAll_eq_map, relocateAll_eq_map, List.map_append]

theorem ofSimple_relocate (statement : SimpleStatement) :
    ofSimple (statement.relocate move) = (ofSimple statement).relocate move := by
  rw [SimpleStatement.relocate, ofSimple, ofExpr_relocate]
  rfl

mutual

theorem ofStatement_relocate (statement : Statement) :
    ofStatement (statement.relocate move) = (ofStatement statement).relocate move := by
  cases statement with
  | simple statement => exact ofSimple_relocate statement
  | rule name conditions action span =>
      rw [Statement.relocate, ofStatement, ofStatement, map_relocate ofSimple_relocate, ofBlock_relocate action,
        relocate, relocateAll_append]
      rfl
  | action name action span =>
      rw [Statement.relocate, ofStatement, ofStatement, ofBlock_relocate action]
      rfl
  | conditionSet name conditions span =>
      rw [Statement.relocate, ofStatement, ofStatement, map_relocate ofSimple_relocate]
      rfl
  | declaration name value span =>
      cases value with
      | none => rfl
      | some value =>
          rw [Statement.relocate, Option.map_some, ofStatement, ofStatement, Option.map_some, ofExpr_relocate]
          rfl
  | command name arguments span =>
      rw [Statement.relocate, ofStatement, ofStatement, map_relocate ofExpr_relocate]
      rfl
  | evaluate target span => rfl
  | perform target span => rfl

theorem ofBlock_relocate (block : Block) : ofBlock (block.relocate move) = (ofBlock block).relocate move := by
  cases block with
  | mk statements span =>
      rw [Block.relocate, ofBlock, ofBlock, ofStatements_relocateAll statements]
      rfl

theorem ofStatements_relocateAll (statements : List Statement) :
    ofStatements (Statement.relocateAll move statements) = relocateAll move (ofStatements statements) := by
  cases statements with
  | nil => rfl
  | cons statement statements =>
      rw [Statement.relocateAll, ofStatements, ofStatements, relocateAll, ofStatement_relocate statement,
        ofStatements_relocateAll statements]

end

theorem ofText_relocate (part : TextPart) : ofText (part.relocate move) = (ofText part).relocate move := by
  cases part with
  | text token => rfl
  | embedded statement => exact ofSimple_relocate statement

theorem ofAttribute_relocate (owned : Attribute) :
    ofAttribute (owned.relocate move) = (ofAttribute owned).relocate move := by
  obtain ⟨name, value, custom, span⟩ := owned
  cases value with
  | none => rfl
  | some value =>
      cases value with
      | string token => rfl
      | embedded statement => exact congrArg (fun child => mk _ [child]) (ofSimple_relocate statement)

theorem ofRow_relocate (option : AnswerOption) : ofRow (option.relocate move) = (ofRow option).relocate move := by
  rw [AnswerOption.relocate, ofRow, map_relocate ofText_relocate, map_relocate ofAttribute_relocate,
    ← relocateAll_append]
  rfl

theorem ofColumn_relocate (option : AnswerOption) :
    ofColumn (option.relocate move) = (ofColumn option).relocate move := by
  rw [AnswerOption.relocate, ofColumn, map_relocate ofText_relocate, map_relocate ofAttribute_relocate,
    ← relocateAll_append]
  rfl

theorem ofComponent_relocate (component : Component) :
    ofComponent (component.relocate move) = (ofComponent component).relocate move := by
  cases component with
  | question q =>
      rw [Component.relocate, Question.relocate, ofComponent, map_relocate ofText_relocate,
        map_relocate ofAttribute_relocate, map_relocate ofRow_relocate, map_relocate ofColumn_relocate,
        ← relocateAll_append, ← relocateAll_append, ← relocateAll_append]
      rfl
  | heading h =>
      rw [Component.relocate, Section.relocate, ofComponent, map_relocate ofAttribute_relocate]
      rfl
  | interlude i =>
      rw [Component.relocate, Interlude.relocate, ofComponent, map_relocate ofStatement_relocate]
      rfl

end Outline

namespace Document

theorem outlines_relocate (document : Document) :
    (document.relocate move).outlines = Outline.relocateAll move document.outlines :=
  Outline.map_relocate Outline.ofComponent_relocate document.components

theorem nodes_relocate (document : Document) :
    (document.relocate move).nodes = document.nodes.map (Node.relocate move) := by
  rw [nodes, visits, outlines_relocate, Outline.visitsFrom_relocateAll, List.map_map, nodes, visits, List.map_map]
  rfl

end Document

end Questionnaire
