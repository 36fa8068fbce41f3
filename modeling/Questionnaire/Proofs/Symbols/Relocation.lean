import Questionnaire.Proofs.Walk.Relocation
import Questionnaire.Proofs.Symbols.Stack

/-! The symbols of a relocated document are those of the document, each at its relocated place. No name is looked up by
a place, so that the same declaration or assignment is turned down, if any is. -/

namespace Questionnaire

variable {α β : Type} {move : Position → Position}

def ScopeOwner.relocate (move : Position → Position) : ScopeOwner → ScopeOwner
  | .survey => .survey
  | .interlude place position => .interlude place (move position)
  | .block place position => .block place (move position)
  | .members symbol => .members symbol

def Scope.relocate (move : Position → Position) (scope : Scope) : Scope :=
  { scope with owner := scope.owner.relocate move }

def Symbol.relocate (move : Position → Position) (symbol : Symbol) : Symbol :=
  { symbol with position := move symbol.position }

theorem Attribute.ownerName?_relocate (attributes : List Attribute) :
    ownerName? (attributes.map (relocate move)) = ownerName? attributes := by
  have hnames : (attributes.map (relocate move)).filter (fun a => a.custom) =
      (attributes.filter fun a => a.custom).map (relocate move) := List.filter_map
  rw [ownerName?, ownerName?, hnames]
  generalize attributes.filter (fun a => a.custom) = names
  rcases names with _ | ⟨first, _ | ⟨second, others⟩⟩
  · rfl
  · rfl
  · rfl

theorem Statement.declared?_relocate (statement : Statement) :
    (statement.relocate move).declared? = statement.declared?.map (Prod.map (Token.relocate move) id) := by
  cases statement <;> rfl

namespace Table

def relocate (move : Position → Position) (table : Table) : Table :=
  ⟨table.scopes.map (Scope.relocate move), table.symbols.map (Symbol.relocate move)⟩

variable {table : Table} {scope : ScopeId} {name : String}

theorem empty_relocate : empty.relocate move = empty := by
  simp [empty, relocate, Scope.relocate, ScopeOwner.relocate]

theorem addScope_relocate (owner : ScopeOwner) (enclosing : ScopeId) :
    (table.relocate move).addScope (owner.relocate move) enclosing =
      ((table.addScope owner enclosing).1, (table.addScope owner enclosing).2.relocate move) := by
  simp [addScope, relocate, Scope.relocate]

theorem define_relocate (symbol : Symbol) :
    (table.relocate move).define (symbol.relocate move) =
      ((table.define symbol).1, (table.define symbol).2.relocate move) := by
  have hscopes : (table.scopes.map (Scope.relocate move)).modify symbol.scope
      (fun scope => scope.insert symbol.name table.symbols.size) =
      (table.scopes.modify symbol.scope fun scope => scope.insert symbol.name table.symbols.size).map
        (Scope.relocate move) := by
    refine Array.ext_getElem? fun index => ?_
    rw [Array.getElem?_modify, Array.getElem?_map, Array.getElem?_map, Array.getElem?_modify]
    split
    · rw [Option.map_map, Option.map_map]
      rfl
    · rfl
  simp only [define, relocate, Array.size_map, Array.map_push]
  exact Prod.ext rfl (congrArg (fun scopes => Table.mk scopes _) hscopes)

theorem resolve_relocate : (table.relocate move).resolve scope name = table.resolve scope name := by
  induction scope using Nat.strongRecOn with
  | ind scope ih =>
      rw [resolve, resolve, relocate, Array.getElem?_map]
      cases table.scopes[scope]? with
      | none => rfl
      | some found =>
          have hfind : (found.relocate move).find? name = found.find? name := rfl
          simp only [Option.map_some, hfind]
          cases found.find? name with
          | some symbol => rfl
          | none =>
              have henclosing : (found.relocate move).enclosing = found.enclosing := rfl
              simp only [henclosing]
              cases found.enclosing with
              | none => rfl
              | some outer =>
                  by_cases hlt : outer < scope
                  · simp only [if_pos hlt]
                    exact ih outer hlt
                  · simp only [if_neg hlt]

theorem members?_relocate (symbol : SymbolId) : (table.relocate move).members? symbol = table.members? symbol := by
  rw [members?, members?, relocate, Array.getElem?_map]
  cases table.symbols[symbol]? with
  | none => rfl
  | some found => rfl

theorem isManaged_relocate : (table.relocate move).isManaged scope name = table.isManaged scope name := by
  rw [isManaged, isManaged, resolve_relocate]
  cases table.resolve scope name with
  | none => rfl
  | some symbol => exact congrArg Option.isSome (members?_relocate symbol)

theorem defineManaged_relocate (kind : ScopeId → SymbolKind) (node : Place) (position : Position) :
    (table.relocate move).defineManaged kind name node scope (move position) =
      ((table.defineManaged kind name node scope position).1,
        (table.defineManaged kind name node scope position).2.relocate move) := by
  have hsize : (table.relocate move).symbols.size = table.symbols.size := Array.size_map
  have hmembers : (table.relocate move).addScope (.members table.symbols.size) scope =
      ((table.addScope (.members table.symbols.size) scope).1,
        (table.addScope (.members table.symbols.size) scope).2.relocate move) :=
    addScope_relocate (.members table.symbols.size) scope
  have hdefined : ((table.addScope (.members table.symbols.size) scope).2.relocate move).define
      ⟨name, kind table.scopes.size, node, scope, move position⟩ = _ :=
    define_relocate ⟨name, kind table.scopes.size, node, scope, position⟩
  rw [defineManaged, hsize, hmembers]
  exact congrArg (fun defined => (table.scopes.size, defined.2)) hdefined

theorem defineOption_relocate (members : ScopeId) (place : Place) (child : Outline × Nat) :
    defineOption members place (table.relocate move) (child.1.relocate move, child.2) =
      (defineOption members place table child).relocate move := by
  obtain ⟨⟨node, children⟩, index⟩ := child
  have hname (option : AnswerOption) : (option.relocate move).name? = option.name? :=
    Attribute.ownerName?_relocate option.attributes
  cases node with
  | row option =>
      simp only [defineOption, Outline.relocate, Outline.node, Node.relocate, hname]
      cases option.name? with
      | none => rfl
      | some name => exact congrArg Prod.snd (defineManaged_relocate _ _ _)
  | column option =>
      simp only [defineOption, Outline.relocate, Outline.node, Node.relocate, hname]
      cases option.name? with
      | none => rfl
      | some name => exact congrArg Prod.snd (defineManaged_relocate _ _ _)
  | _ => rfl

theorem foldl_relocate {step : Table → Outline × Nat → Table}
    (h : ∀ table child, step (table.relocate move) (child.1.relocate move, child.2) =
      (step table child).relocate move) (outlines : List Outline) :
    (Outline.relocateAll move outlines).zipIdx.foldl step (table.relocate move) =
      (outlines.zipIdx.foldl step table).relocate move := by
  rw [Outline.relocateAll_eq_map, List.zipIdx_map]
  generalize outlines.zipIdx = children
  induction children generalizing table with
  | nil => rfl
  | cons child children ih =>
      rw [List.map_cons, List.foldl_cons, List.foldl_cons, ← ih, ← h]
      rfl

theorem defineQuestion_relocate (component : Outline × Nat) :
    defineQuestion (table.relocate move) (component.1.relocate move, component.2) =
      (defineQuestion table component).relocate move := by
  obtain ⟨⟨node, children⟩, index⟩ := component
  cases node with
  | question q =>
      have hname : (q.relocate move).name? = q.name? := Attribute.ownerName?_relocate q.attributes
      simp only [defineQuestion, Outline.relocate, Outline.node, Outline.children, Node.relocate, hname]
      cases q.name? with
      | none => rfl
      | some name =>
          have hmanaged : (table.relocate move).defineManaged .question name [index] survey
              (q.relocate move).span.first.position = _ :=
            defineManaged_relocate .question [index] q.span.first.position
          dsimp only
          rw [hmanaged]
          exact foldl_relocate (fun _ child => defineOption_relocate _ [index] child) children
  | _ => rfl

theorem ofQuestions_relocate (document : Document) :
    ofQuestions (document.relocate move) = (ofQuestions document).relocate move := by
  rw [ofQuestions, Document.outlines_relocate, ← @empty_relocate move]
  exact foldl_relocate (fun _ component => defineQuestion_relocate component) document.outlines

end Table

namespace Declaring

/-- What the steps would do on a relocated table. -/
def relocateResult (move : Position → Position) :
    EStateM.Result Diagnostic Table α → EStateM.Result Diagnostic Table α
  | .ok value table => .ok value (table.relocate move)
  | .error diagnostic table => .error (diagnostic.relocate move) (table.relocate move)

/-- The second steps do on a relocated table what the first do on the table. -/
def Relocates (move : Position → Position) (step step' : Declaring α) : Prop :=
  ∀ table, step' (table.relocate move) = relocateResult move (step table)

theorem relocates_pure (value : α) : Relocates move (pure value) (pure value) := fun _ => rfl

theorem relocates_bind {step step' : Declaring α} {next next' : α → Declaring β} (h : Relocates move step step')
    (hnext : ∀ value, Relocates move (next value) (next' value)) :
    Relocates move (step >>= next) (step' >>= next') := by
  intro table
  have hstep := h table
  change EStateM.bind step' next' (table.relocate move) = relocateResult move (EStateM.bind step next table)
  unfold EStateM.bind
  rw [hstep]
  cases step table with
  | ok value after => exact hnext value after
  | error => rfl

theorem relocates_openScope (owner : ScopeOwner) (enclosing : ScopeId) :
    Relocates move (openScope owner enclosing) (openScope (owner.relocate move) enclosing) := by
  intro table
  rw [openScope, Table.addScope_relocate]
  rfl

theorem relocates_declare (scope : ScopeId) (place : Place) (name : Token) (kind : SymbolKind) :
    Relocates move (declare scope place name kind) (declare scope place (name.relocate move) kind) := by
  intro table
  rw [declare, declare, Token.relocate_text, Table.isManaged_relocate]
  split
  · rfl
  · have hdefined : (table.relocate move).define ⟨name.text, kind, place, scope, move name.position⟩ = _ :=
      Table.define_relocate ⟨name.text, kind, place, scope, name.position⟩
    exact congrArg (fun defined => EStateM.Result.ok () defined.2) hdefined

theorem relocates_assign (scope : ScopeId) (target : Token) :
    Relocates move (assign scope target) (assign scope (target.relocate move)) := by
  intro table
  rw [assign, assign, Token.relocate_text, Table.isManaged_relocate]
  split
  · rfl
  · rfl

theorem relocates_enter (scope : ScopeId) (place : Place) (node : Node) :
    Relocates move (enter scope place node) (enter scope place (node.relocate move)) := by
  cases node with
  | interlude i => exact relocates_openScope _ scope
  | block b =>
      cases b
      exact relocates_openScope _ scope
  | statement s =>
      rw [enter, Node.relocate, enter, Statement.declared?_relocate]
      cases s.declared? with
      | none => exact relocates_pure scope
      | some declared =>
          exact relocates_bind (relocates_declare scope place declared.1 declared.2) fun _ => relocates_pure scope
  | expression e =>
      cases e with
      | assign target value span =>
          exact relocates_bind (relocates_assign scope target) fun _ => relocates_pure scope
      | _ => exact relocates_pure scope
  | _ => exact relocates_pure scope

mutual

theorem relocates_outline (scope : ScopeId) (place : Place) (found : Outline) :
    Relocates move (outline scope place found) (outline scope place (found.relocate move)) := by
  cases found with
  | mk node children =>
      rw [Outline.relocate, outline, outline]
      exact relocates_bind (relocates_enter scope place node) fun inner =>
        relocates_outlinesFrom inner place 0 children

theorem relocates_outlinesFrom (scope : ScopeId) (place : Place) (index : Nat) (outlines : List Outline) :
    Relocates move (outlinesFrom scope place index outlines)
      (outlinesFrom scope place index (Outline.relocateAll move outlines)) := by
  cases outlines with
  | nil => exact relocates_pure ()
  | cons first others =>
      rw [Outline.relocateAll, outlinesFrom, outlinesFrom]
      exact relocates_bind (relocates_outline scope (index :: place) first) fun _ =>
        relocates_outlinesFrom scope place (index + 1) others

end

end Declaring

theorem Table.ofDocument_relocate (document : Document) :
    Table.ofDocument (document.relocate move) =
      relocateOutcome move (Table.relocate move) (Table.ofDocument document) := by
  rw [ofDocument_eq, ofDocument_eq, ofQuestions_relocate, Document.outlines_relocate,
    Declaring.relocates_outlinesFrom survey [] 0 document.outlines (ofQuestions document)]
  cases Declaring.outlinesFrom survey [] 0 document.outlines (ofQuestions document) with
  | ok => rfl
  | error => rfl

end Questionnaire
