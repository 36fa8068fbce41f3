import Questionnaire.Symbols.Resolution
import Questionnaire.Walk.Visitor

/-! The symbols of a document. Questions come first, with their rows and columns, so that their names are known
everywhere; then, on a walk, every interlude and every block opens a scope for what is declared in it, and closes it
when it is left. The names of the survey can be neither declared again nor assigned to. -/

namespace Questionnaire

/-- The name that a statement declares. -/
def Statement.declared? : Statement → Option (Token × SymbolKind)
  | rule name _ _ _ => some (name, .rule)
  | action name _ _ => some (name, .action)
  | conditionSet name _ _ => some (name, .conditionSet)
  | declaration name _ _ => some (name, .declaration)
  | _ => none

namespace Table

/-- Adds a symbol with a scope for its members, which the scope of the symbol encloses. -/
def defineManaged (table : Table) (kind : ScopeId → SymbolKind) (name : String) (node : Place) (scope : ScopeId)
    (position : Position) : ScopeId × Table :=
  let (members, table) := table.addScope (.members table.symbols.size) scope
  (members, (table.define ⟨name, kind members, node, scope, position⟩).2)

/-- Adds a row or a column, if it has a name, to the members of its question. -/
def defineOption (members : ScopeId) (place : Place) (table : Table) (child : Outline × Nat) : Table :=
  let define (kind : ScopeId → SymbolKind) (option : AnswerOption) : Table :=
    match option.name? with
    | some name => (table.defineManaged kind name (child.2 :: place) members option.span.first.position).2
    | none => table
  match child.1.node with
  | .row option => define .row option
  | .column option => define .column option
  | _ => table

/-- Adds a question and its options, if it has a name. -/
def defineQuestion (table : Table) (component : Outline × Nat) : Table :=
  match component.1.node with
  | .question q =>
    match q.name? with
    | some name =>
      let place := [component.2]
      let (members, table) := table.defineManaged .question name place survey q.span.first.position
      component.1.children.zipIdx.foldl (defineOption members place) table
    | none => table
  | _ => table

/-- The names that the survey gives a meaning. -/
def ofQuestions (document : Document) : Table := document.outlines.zipIdx.foldl defineQuestion empty

end Table

/-- A table that is added to on a walk, and the scopes that are open, the innermost first. -/
structure Building where
  table : Table
  opened : List ScopeId
deriving Inhabited

namespace Building

/-- Where names are declared and looked up. -/
def innermost (building : Building) : ScopeId := building.opened.headD Table.survey

def isManaged (building : Building) (name : String) : Bool := building.table.isManaged building.innermost name

/-- A step of a walk, which stops at the first fault. -/
abbrev Step := EStateM Diagnostic Building

def openScope (owner : ScopeOwner) : Step Unit := fun building =>
  let (scope, table) := building.table.addScope owner building.innermost
  .ok () ⟨table, scope :: building.opened⟩

def closeScope : Step Unit := fun building => .ok () { building with opened := building.opened.tail }

def declare (place : Place) (name : Token) (kind : SymbolKind) : Step Unit := fun building =>
  if building.isManaged name.text then .error ⟨.redeclared name.text, name.position⟩ building
  else
    let symbol : Symbol := ⟨name.text, kind, place, building.innermost, name.position⟩
    .ok () { building with table := (building.table.define symbol).2 }

def assign (target : Token) : Step Unit := fun building =>
  if building.isManaged target.text then .error ⟨.readOnly target.text, target.position⟩ building
  else .ok () building

def enter (place : Place) (node : Node) : Step Unit := do
  match node with
  | .interlude i => openScope (.interlude place i.span.first.position)
  | .block b => openScope (.block place b.span.first.position)
  | .statement s => if let some (name, kind) := s.declared? then declare place name kind
  | .expression (.assign target _ _) => assign target
  | _ => return

def leave (_ : Place) (node : Node) : Step Unit :=
  match node with
  | .interlude _ => closeScope
  | .block _ => closeScope
  | _ => pure ()

def visitor : Visitor Building := ⟨enter, leave⟩

end Building

/-- The symbols of a document, or the first declaration or assignment that the survey does not allow. -/
def Table.ofDocument (document : Document) : Except Diagnostic Table :=
  (document.walked Building.visitor ⟨ofQuestions document, [survey]⟩).map Building.table

end Questionnaire
