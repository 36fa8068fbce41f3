import Questionnaire.Symbols.Table

/-! What names refer to. A name is looked up from the inside out; a member is looked up in the scope of its
owner alone. -/

namespace Questionnaire.Table

/-- The symbol of a name in the scope, or else in the scopes around it. A scope comes after those around it. -/
def resolve (table : Table) (scope : ScopeId) (name : String) : Option SymbolId :=
  match table.scopes[scope]? with
  | none => none
  | some found =>
    match found.find? name with
    | some symbol => some symbol
    | none =>
      match found.enclosing with
      | none => none
      | some outer => if outer < scope then table.resolve outer name else none
termination_by scope

def members? (table : Table) (symbol : SymbolId) : Option ScopeId := do (← table.symbols[symbol]?).kind.members?

/-- The member of a question, a row or a column. -/
def resolveMember (table : Table) (symbol : SymbolId) (name : String) : Option SymbolId := do
  (← table.scopes[← table.members? symbol]?).find? name

/-- What a name and the members asked for after it refer to. -/
def resolvePath (table : Table) (scope : ScopeId) : List String → Option SymbolId
  | [] => none
  | name :: members => do members.foldlM table.resolveMember (← table.resolve scope name)

/-- Whether the name, seen from the scope, belongs to the survey. -/
def isManaged (table : Table) (scope : ScopeId) (name : String) : Bool :=
  match table.resolve scope name with
  | some symbol => (table.members? symbol).isSome
  | none => false

end Questionnaire.Table
