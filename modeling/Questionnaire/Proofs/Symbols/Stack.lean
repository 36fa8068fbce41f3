import Questionnaire.Proofs.Walk.Recording
import Questionnaire.Symbols.Declarations

/-! The symbols of a document without a stack of scopes. Whatever scopes are opened below a node are closed again before
it is left, so that the innermost open scope is that of the nodes around. What stands below a node can therefore be
declared by going down with the scope in hand, and the walk over a document comes to the table that this comes to. -/

namespace Questionnaire

/-- Steps that add to a table, and stop at the first fault. -/
abbrev Declaring := EStateM Diagnostic Table

namespace Declaring

def openScope (owner : ScopeOwner) (enclosing : ScopeId) : Declaring ScopeId := fun table =>
  let (scope, after) := table.addScope owner enclosing
  .ok scope after

def declare (scope : ScopeId) (place : Place) (name : Token) (kind : SymbolKind) : Declaring Unit := fun table =>
  if table.isManaged scope name.text then .error ⟨.redeclared name.text, name.position⟩ table
  else .ok () (table.define ⟨name.text, kind, place, scope, name.position⟩).2

def assign (scope : ScopeId) (target : Token) : Declaring Unit := fun table =>
  if table.isManaged scope target.text then .error ⟨.readOnly target.text, target.position⟩ table
  else .ok () table

/-- Comes to a node in a scope, and answers the scope for the nodes below it. -/
def enter (scope : ScopeId) (place : Place) (node : Node) : Declaring ScopeId := do
  match node with
  | .interlude i => openScope (.interlude place i.span.first.position) scope
  | .block b => openScope (.block place b.span.first.position) scope
  | .statement s =>
    if let some (name, kind) := s.declared? then declare scope place name kind
    return scope
  | .expression (.assign target _ _) =>
    assign scope target
    return scope
  | _ => return scope

mutual

def outline (scope : ScopeId) (place : Place) : Outline → Declaring Unit
  | .mk node children => do outlinesFrom (← enter scope place node) place 0 children

/-- The children of a place from the given index on. -/
def outlinesFrom (scope : ScopeId) (place : Place) (index : Nat) : List Outline → Declaring Unit
  | [] => return
  | first :: others => do
    outline scope (index :: place) first
    outlinesFrom scope place (index + 1) others

end

variable {scope : ScopeId} {place : Place}

theorem enter_statement_of_none {statement : Statement} (h : statement.declared? = none) :
    enter scope place (.statement statement) = pure scope := by
  simp only [enter, h]

theorem enter_statement_of_some {statement : Statement} {name : Token} {kind : SymbolKind}
    (h : statement.declared? = some (name, kind)) :
    enter scope place (.statement statement) = declare scope place name kind >>= fun _ => pure scope := by
  simp only [enter, h]

theorem enter_assign {target : Token} {value : Expr} {span : Span} :
    enter scope place (.expression (.assign target value span)) = assign scope target >>= fun _ => pure scope := rfl

end Declaring

namespace Building

/-- How a step ends on a walk that is to have these scopes open then, against a step that only has the table: with the
same table, or with the same fault. -/
inductive Follows (opened : List ScopeId) :
    EStateM.Result Diagnostic Building Unit → EStateM.Result Diagnostic Table Unit → Prop where
  | ok {table : Table} : Follows opened (.ok () ⟨table, opened⟩) (.ok () table)
  | error {diagnostic : Diagnostic} {building : Building} {table : Table} :
      Follows opened (.error diagnostic building) (.error diagnostic table)

/-- How a node is entered where these scopes are open: the scope for the nodes below it is the innermost one then, and
what entering it has opened is closed by leaving it. -/
inductive Enters (opened : List ScopeId) (place : Place) (node : Node) :
    EStateM.Result Diagnostic Building Unit → EStateM.Result Diagnostic Table ScopeId → Prop where
  | ok {table : Table} {scope : ScopeId} {inner : List ScopeId} (hscope : inner.headD Table.survey = scope)
      (hleave : ∀ last, leave place node ⟨last, inner⟩ = .ok () ⟨last, opened⟩) :
      Enters opened place node (.ok () ⟨table, inner⟩) (.ok scope table)
  | error {diagnostic : Diagnostic} {building : Building} {table : Table} :
      Enters opened place node (.error diagnostic building) (.error diagnostic table)

variable {opened : List ScopeId} {table : Table} {place : Place} {node : Node}

theorem Follows.bind {first second : Step Unit} {above below : Declaring Unit}
    (hfirst : Follows opened (first ⟨table, opened⟩) (above table))
    (hsecond : ∀ later, Follows opened (second ⟨later, opened⟩) (below later)) :
    Follows opened ((first >>= fun _ => second) ⟨table, opened⟩) ((above >>= fun _ => below) table) := by
  rw [run_bind, run_bind]
  generalize first ⟨table, opened⟩ = firstEnd at hfirst
  generalize above table = aboveEnd at hfirst
  cases hfirst with
  | ok => exact hsecond _
  | error => exact .error

/-- A node at which no scope is opened leaves none to be closed. -/
theorem Follows.enters {step : Step Unit} {above : Declaring Unit}
    (h : Follows opened (step ⟨table, opened⟩) (above table)) (hleave : leave place node = pure ()) :
    Enters opened place node (step ⟨table, opened⟩)
      ((above >>= fun _ => pure (opened.headD Table.survey)) table) := by
  rw [run_bind]
  generalize step ⟨table, opened⟩ = stepEnd at h
  generalize above table = aboveEnd at h
  cases h with
  | ok => exact .ok rfl fun _ => by rw [hleave]; rfl
  | error => exact .error

theorem Enters.bind {inside : Step Unit} {above : Declaring ScopeId} {below : ScopeId → Declaring Unit}
    (henter : Enters opened place node (enter place node ⟨table, opened⟩) (above table))
    (hinside : ∀ inner later,
      Follows inner (inside ⟨later, inner⟩) (below (inner.headD Table.survey) later)) :
    Follows opened ((enter place node >>= fun _ => inside >>= fun _ => leave place node) ⟨table, opened⟩)
      ((above >>= below) table) := by
  rw [run_bind, run_bind]
  generalize enter place node ⟨table, opened⟩ = enterEnd at henter
  generalize above table = aboveEnd at henter
  cases henter with
  | error => exact .error
  | @ok later scope inner hscope hleave =>
      -- inside other scopes may be open, and those around are back only after leaving
      have hfollows := hinside inner later
      rw [hscope] at hfollows
      dsimp only
      rw [run_bind]
      generalize inside ⟨later, inner⟩ = insideEnd at hfollows
      generalize below scope later = belowEnd at hfollows
      cases hfollows with
      | error => exact .error
      | ok =>
          dsimp only
          rw [hleave]
          exact .ok

theorem isManaged_mk (table : Table) (opened : List ScopeId) (name : String) :
    isManaged ⟨table, opened⟩ name = table.isManaged (opened.headD Table.survey) name := rfl

theorem follows_declare (place : Place) (name : Token) (kind : SymbolKind) :
    Follows opened (declare place name kind ⟨table, opened⟩)
      (Declaring.declare (opened.headD Table.survey) place name kind table) := by
  rw [declare, Declaring.declare, isManaged_mk]
  split
  · exact .error
  · exact .ok

theorem follows_assign (target : Token) :
    Follows opened (assign target ⟨table, opened⟩)
      (Declaring.assign (opened.headD Table.survey) target table) := by
  rw [assign, Declaring.assign, isManaged_mk]
  split
  · exact .error
  · exact .ok

/-- The step at a node: it opens a scope, declares a name, assigns to one, or does nothing. -/
theorem enters_enter (opened : List ScopeId) (table : Table) (place : Place) (node : Node) :
    Enters opened place node (enter place node ⟨table, opened⟩)
      (Declaring.enter (opened.headD Table.survey) place node table) := by
  cases node with
  | interlude i => exact .ok rfl fun _ => rfl
  | block b => exact .ok rfl fun _ => rfl
  | statement s =>
      cases hdeclared : s.declared? with
      | none =>
          have henter : enter place (.statement s) = pure () := by simp only [enter, hdeclared]
          rw [henter, Declaring.enter_statement_of_none hdeclared]
          exact .ok rfl fun _ => rfl
      | some declared =>
          obtain ⟨name, kind⟩ := declared
          have henter : enter place (.statement s) = declare place name kind := by simp only [enter, hdeclared]
          rw [henter, Declaring.enter_statement_of_some hdeclared]
          exact (follows_declare place name kind).enters rfl
  | expression e =>
      cases e with
      | assign target value span => exact (follows_assign target).enters rfl
      | _ => exact .ok rfl fun _ => rfl
  | _ => exact .ok rfl fun _ => rfl

mutual

theorem follows_walk (opened : List ScopeId) (table : Table) (place : Place) (tree : Outline) :
    Follows opened (tree.walk visitor place ⟨table, opened⟩)
      (Declaring.outline (opened.headD Table.survey) place tree table) := by
  cases tree with
  | mk node children =>
      exact (enters_enter opened table place node).bind fun inner later =>
        follows_walkFrom inner later place 0 children

theorem follows_walkFrom (opened : List ScopeId) (table : Table) (place : Place) (index : Nat)
    (trees : List Outline) :
    Follows opened (Outline.walkFrom visitor place index trees ⟨table, opened⟩)
      (Declaring.outlinesFrom (opened.headD Table.survey) place index trees table) := by
  cases trees with
  | nil => exact .ok
  | cons tree trees =>
      exact (follows_walk opened table (index :: place) tree).bind fun later =>
        follows_walkFrom opened later place (index + 1) trees

end

end Building

/-- The table of the walk is the one that going down with the scope in hand comes to. -/
theorem Table.ofDocument_eq (document : Document) : ofDocument document =
    match Declaring.outlinesFrom survey [] 0 document.outlines (ofQuestions document) with
    | .ok _ table => .ok table
    | .error diagnostic _ => .error diagnostic := by
  have hfollows := Building.follows_walkFrom [survey] (ofQuestions document) [] 0 document.outlines
  rw [List.headD_cons] at hfollows
  rw [ofDocument, Document.walked, Document.walk]
  generalize Outline.walkFrom Building.visitor [] 0 document.outlines _ = walkEnd at hfollows
  generalize Declaring.outlinesFrom survey [] 0 document.outlines _ = downEnd at hfollows
  cases hfollows with
  | ok => rfl
  | error => rfl

end Questionnaire
