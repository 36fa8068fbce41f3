import Questionnaire.Proofs.Symbols.ReadOnly

/-! How a table grows. Nothing is ever taken away, and what declarations add goes to one scope at a time: all others are
left as they were, but for the new ones that nobody has seen. -/

namespace Questionnaire

/-- The place of the interlude or the block that a scope belongs to. -/
def ScopeOwner.site? : ScopeOwner → Option Place
  | interlude place _ => some place
  | block place _ => some place
  | _ => none

namespace Table

variable {table middle later : Table} {scope outer : ScopeId} {name : String} {touched next all : Option ScopeId}

def owner? (table : Table) (scope : ScopeId) : Option ScopeOwner := table.scopes[scope]?.map Scope.owner

def enclosing? (table : Table) (scope : ScopeId) : Option ScopeId := table.scopes[scope]?.bind Scope.enclosing

/-- What the scope itself knows. -/
def known? (table : Table) (scope : ScopeId) (name : String) : Option SymbolId :=
  table.scopes[scope]?.bind fun found => found.find? name

theorem lt_size_of_owner? {owner : ScopeOwner} (h : table.owner? scope = some owner) : scope < table.scopes.size := by
  obtain ⟨found, hfound, -⟩ := Option.map_eq_some_iff.mp h
  exact (Array.getElem?_eq_some_iff.mp hfound).1

theorem resolve_eq_of_known {id : SymbolId} (h : table.known? scope name = some id) :
    table.resolve scope name = some id := by
  obtain ⟨found, hfound, hknown⟩ := Option.bind_eq_some_iff.mp h
  exact resolve_of_known hfound hknown

theorem resolve_eq_outer (h : table.known? scope name = none) (houter : table.enclosing? scope = some outer)
    (hlt : outer < scope) : table.resolve scope name = table.resolve outer name := by
  obtain ⟨found, hfound, henclosing⟩ := Option.bind_eq_some_iff.mp houter
  rw [known?, hfound] at h
  exact resolve_of_enclosing hfound h henclosing hlt

theorem owner?_addScope_self (owner : ScopeOwner) :
    (table.addScope owner outer).2.owner? table.scopes.size = some owner := by
  rw [owner?, getElem?_scopes_addScope, if_pos rfl]
  rfl

theorem enclosing?_addScope_self (owner : ScopeOwner) :
    (table.addScope owner outer).2.enclosing? table.scopes.size = some outer := by
  rw [enclosing?, getElem?_scopes_addScope, if_pos rfl]
  rfl

theorem known?_addScope_self (owner : ScopeOwner) :
    (table.addScope owner outer).2.known? table.scopes.size name = none := by
  rw [known?, getElem?_scopes_addScope, if_pos rfl]
  rfl

theorem size_scopes_addScope (table : Table) (owner : ScopeOwner) (outer : ScopeId) :
    (table.addScope owner outer).2.scopes.size = table.scopes.size + 1 := by
  simp [addScope]

/-- The later table has all there was, and only the scope that is touched may know more. -/
structure Grows (touched : Option ScopeId) (table later : Table) : Prop where
  size : table.scopes.size ≤ later.scopes.size
  owner : ∀ scope < table.scopes.size, later.owner? scope = table.owner? scope
  enclosing : ∀ scope < table.scopes.size, later.enclosing? scope = table.enclosing? scope
  known : ∀ scope < table.scopes.size, some scope ≠ touched → ∀ name, later.known? scope name = table.known? scope name
  symbols : ∀ {id : SymbolId} {symbol : Symbol}, table.symbols[id]? = some symbol → later.symbols[id]? = some symbol

namespace Grows

theorem refl (touched : Option ScopeId) (table : Table) : Grows touched table table :=
  ⟨Nat.le_refl _, fun _ _ => rfl, fun _ _ => rfl, fun _ _ _ _ => rfl, fun h => h⟩

theorem comp (h : Grows touched table middle) (hnext : Grows next middle later)
    (hall : ∀ scope < table.scopes.size, some scope ≠ all → some scope ≠ touched ∧ some scope ≠ next) :
    Grows all table later where
  size := Nat.le_trans h.size hnext.size
  owner scope hlt := (hnext.owner scope (Nat.lt_of_lt_of_le hlt h.size)).trans (h.owner scope hlt)
  enclosing scope hlt := (hnext.enclosing scope (Nat.lt_of_lt_of_le hlt h.size)).trans (h.enclosing scope hlt)
  known scope hlt hne name := by
    obtain ⟨hfirst, hsecond⟩ := hall scope hlt hne
    exact (hnext.known scope (Nat.lt_of_lt_of_le hlt h.size) hsecond name).trans (h.known scope hlt hfirst name)
  symbols hid := hnext.symbols (h.symbols hid)

theorem trans (h : Grows touched table middle) (hnext : Grows touched middle later) : Grows touched table later :=
  h.comp hnext fun _ _ hne => ⟨hne, hne⟩

theorem of_none (h : Grows none table later) (touched : Option ScopeId) : Grows touched table later :=
  h.comp (.refl none later) fun _ _ _ => ⟨nofun, nofun⟩

/-- What is new may be touched unseen. -/
theorem trans_fresh (h : Grows none table middle) (hnext : Grows (some table.scopes.size) middle later) :
    Grows none table later :=
  h.comp hnext fun _ hlt _ => ⟨nofun, fun hsame => Nat.ne_of_lt hlt (Option.some.inj hsame)⟩

theorem addScope (table : Table) (owner : ScopeOwner) (outer : ScopeId) :
    Grows none table (table.addScope owner outer).2 := by
  have hsame (scope : ScopeId) (hlt : scope < table.scopes.size) :
      (table.addScope owner outer).2.scopes[scope]? = table.scopes[scope]? := by
    rw [getElem?_scopes_addScope, if_neg (Nat.ne_of_lt hlt)]
  exact {
    size := by rw [size_scopes_addScope]; exact Nat.le_succ _
    owner := fun scope hlt => congrArg (Option.map Scope.owner) (hsame scope hlt)
    enclosing := fun scope hlt => congrArg (Option.bind · Scope.enclosing) (hsame scope hlt)
    known := fun scope hlt _ name => by rw [known?, hsame scope hlt, known?]
    symbols := fun h => h }

theorem known?_define (table : Table) (symbol : Symbol) (h : scope < table.scopes.size) (name : String) :
    (table.define symbol).2.known? scope name =
      if symbol.scope = scope ∧ name = symbol.name then some table.symbols.size else table.known? scope name := by
  obtain ⟨before, hbefore⟩ : ∃ before, table.scopes[scope]? = some before := ⟨_, Array.getElem?_eq_getElem h⟩
  obtain ⟨found, hfound, hgains⟩ := exists_gains hbefore
  rw [known?, hfound, known?, hbefore]
  exact hgains.find? name

theorem define (table : Table) (symbol : Symbol) : Grows (some symbol.scope) table (table.define symbol).2 := by
  have hgains (scope : ScopeId) (hlt : scope < table.scopes.size) : ∃ before found,
      table.scopes[scope]? = some before ∧ (table.define symbol).2.scopes[scope]? = some found ∧
        table.Gains symbol scope before found := by
    have hbefore := Array.getElem?_eq_getElem hlt
    exact ⟨_, (exists_gains hbefore).imp fun _ h => ⟨hbefore, h⟩⟩
  constructor
  case size => exact Nat.le_of_eq (size_scopes_define table symbol).symm
  case owner =>
    intro scope hlt
    obtain ⟨before, found, hbefore, hfound, hgains⟩ := hgains scope hlt
    rw [owner?, hfound, owner?, hbefore, Option.map_some, Option.map_some, hgains.owner]
  case enclosing =>
    intro scope hlt
    obtain ⟨before, found, hbefore, hfound, hgains⟩ := hgains scope hlt
    rw [enclosing?, hfound, enclosing?, hbefore]
    exact hgains.enclosing
  case known =>
    intro scope hlt hne name
    rw [known?_define table symbol hlt, if_neg fun h => hne (congrArg some h.1.symm)]
  case symbols => exact Agrees.symbols_push

end Grows

end Table

end Questionnaire
