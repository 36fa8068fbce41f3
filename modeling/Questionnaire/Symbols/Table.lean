import Questionnaire.Walk.Outline

/-! Scopes and symbols. Both are numbered in the order they are added and are never taken away again, but a
scope knows only the latest symbol of a name. Scopes enclose one another; questions, rows and columns have a
scope of their own for their members. -/

namespace Questionnaire

abbrev ScopeId := Nat

abbrev SymbolId := Nat

/-- What a scope belongs to. -/
inductive ScopeOwner where
  | survey
  | interlude (place : Place) (position : Position)
  | block (place : Place) (position : Position)
  | members (symbol : SymbolId)
deriving DecidableEq, Inhabited, Repr

inductive SymbolKind where
  | declaration
  | rule
  | action
  | conditionSet
  | question (members : ScopeId)
  | row (members : ScopeId)
  | column (members : ScopeId)
deriving DecidableEq, Inhabited, Repr

namespace SymbolKind

def label : SymbolKind → String
  | declaration => "variable"
  | rule => "rule"
  | action => "action"
  | conditionSet => "conditions"
  | question _ => "question"
  | row _ => "row"
  | column _ => "column"

/-- All labels in their order as text. -/
def labels : List String := ["action", "column", "conditions", "question", "row", "rule", "variable"]

/-- The scope for the members of a question, a row or a column. -/
def members? : SymbolKind → Option ScopeId
  | question members => some members
  | row members => some members
  | column members => some members
  | _ => none

/-- Whether the survey, and not its logic, gives the name a meaning. -/
def isManaged (kind : SymbolKind) : Bool := kind.members?.isSome

end SymbolKind

structure Symbol where
  name : String
  kind : SymbolKind
  /-- The node that gives the name a meaning. -/
  node : Place
  scope : ScopeId
  position : Position
deriving DecidableEq, Inhabited, Repr

structure Scope where
  owner : ScopeOwner
  enclosing : Option ScopeId
  /-- The latest symbol of every name. -/
  entries : List (String × SymbolId)
deriving DecidableEq, Inhabited, Repr

namespace Scope

def find? (scope : Scope) (name : String) : Option SymbolId := scope.entries.lookup name

/-- The symbol takes the place of an earlier one of its name. -/
def insert (scope : Scope) (name : String) (symbol : SymbolId) : Scope :=
  { scope with entries := (name, symbol) :: scope.entries.filter fun entry => entry.1 != name }

/-- The symbols of a scope in the order of their names. -/
def byName (scope : Scope) : List SymbolId :=
  (scope.entries.mergeSort fun left right => !decide (right.1 < left.1)).map Prod.snd

@[simp] theorem find?_insert_self (scope : Scope) (name : String) (symbol : SymbolId) :
    (scope.insert name symbol).find? name = some symbol := by
  simp [find?, insert]

theorem find?_insert_of_ne {name other : String} (scope : Scope) (symbol : SymbolId) (h : other ≠ name) :
    (scope.insert name symbol).find? other = scope.find? other := by
  have filtered : (scope.entries.filter fun entry => entry.1 != name).lookup other = scope.entries.lookup other := by
    induction scope.entries with
    | nil => rfl
    | cons entry entries ih =>
      by_cases hentry : entry.1 = name
      · rw [List.filter_cons_of_neg (by simpa using hentry), List.lookup_cons, hentry, beq_eq_false_iff_ne.mpr h, ih]
      · rw [List.filter_cons_of_pos (by simpa using hentry), List.lookup_cons, List.lookup_cons, ih]
  rw [find?, insert, List.lookup_cons, beq_eq_false_iff_ne.mpr h]
  exact filtered

end Scope

structure Table where
  scopes : Array Scope
  symbols : Array Symbol
deriving DecidableEq, Inhabited, Repr

namespace Table

/-- The scope of the survey as a whole. -/
def survey : ScopeId := 0

def empty : Table := ⟨#[⟨.survey, none, []⟩], #[]⟩

/-- Opens a scope within another. -/
def addScope (table : Table) (owner : ScopeOwner) (enclosing : ScopeId) : ScopeId × Table :=
  (table.scopes.size, { table with scopes := table.scopes.push ⟨owner, some enclosing, []⟩ })

/-- Adds a symbol, which its scope then knows by its name. -/
def define (table : Table) (symbol : Symbol) : SymbolId × Table :=
  (table.symbols.size,
    ⟨table.scopes.modify symbol.scope fun scope => scope.insert symbol.name table.symbols.size,
      table.symbols.push symbol⟩)

@[simp] theorem symbols_addScope (table : Table) (owner : ScopeOwner) (enclosing : ScopeId) :
    (table.addScope owner enclosing).2.symbols = table.symbols := rfl

@[simp] theorem symbols_define (table : Table) (symbol : Symbol) :
    (table.define symbol).2.symbols = table.symbols.push symbol := rfl

@[simp] theorem size_scopes_define (table : Table) (symbol : Symbol) :
    (table.define symbol).2.scopes.size = table.scopes.size := by
  simp [define]

theorem getElem?_scopes_addScope (table : Table) (owner : ScopeOwner) (enclosing scope : ScopeId) :
    (table.addScope owner enclosing).2.scopes[scope]? =
      if scope = table.scopes.size then some ⟨owner, some enclosing, []⟩ else table.scopes[scope]? := by
  simp [addScope, Array.getElem?_push]

theorem getElem?_scopes_define (table : Table) (symbol : Symbol) (scope : ScopeId) :
    (table.define symbol).2.scopes[scope]? =
      if symbol.scope = scope then (table.scopes[scope]?).map fun s => s.insert symbol.name table.symbols.size
      else table.scopes[scope]? := by
  simp [define, Array.getElem?_modify]

/-- The first scope with an owner. -/
def scopeOwnedBy? (table : Table) (isOwner : ScopeOwner → Bool) : Option ScopeId :=
  table.scopes.findIdx? fun scope => isOwner scope.owner

def scopeOfInterlude? (table : Table) (place : Place) : Option ScopeId :=
  table.scopeOwnedBy? fun
    | .interlude owner _ => owner == place
    | _ => false

def scopeOfBlock? (table : Table) (place : Place) : Option ScopeId :=
  table.scopeOwnedBy? fun
    | .block owner _ => owner == place
    | _ => false

/-- The symbols that a scope knows, over all scopes. -/
def reachable (table : Table) : List SymbolId :=
  table.scopes.toList.flatMap fun scope => scope.entries.map Prod.snd

def size (table : Table) : Nat := table.reachable.length

def isEmpty (table : Table) : Bool := table.size == 0

/-- How many reachable symbols there are of each kind, by its label; kinds without any are left out. -/
def counts (table : Table) : List (String × Nat) :=
  let found := table.reachable.filterMap fun symbol => table.symbols[symbol]?.map fun s => s.kind.label
  SymbolKind.labels.filterMap fun label =>
    if found.count label = 0 then none else some (label, found.count label)

end Table

end Questionnaire
