import Questionnaire.Symbols.Declarations

/-! Tables in which the survey guards its names. Statements stand in the lexical scopes: that of the survey, and those
of interludes and blocks. The scope of the survey knows every guarded name, and no lexical scope knows one for
anything but the survey, so that a name is managed wherever it is looked up from, or nowhere. What the scopes of
members know plays no part in this. -/

namespace Questionnaire

/-- All scopes but those of members. -/
def ScopeOwner.isLexical : ScopeOwner → Bool
  | members _ => false
  | _ => true

namespace Table

variable {table later : Table} {scope outer : ScopeId} {found : Scope} {name : String} {id : SymbolId}
  {names : List String}

theorem resolve_of_known (hfound : table.scopes[scope]? = some found) (hknown : found.find? name = some id) :
    table.resolve scope name = some id := by
  rw [resolve]
  simp only [hfound, hknown]

theorem resolve_of_enclosing (hfound : table.scopes[scope]? = some found) (hnone : found.find? name = none)
    (henclosing : found.enclosing = some outer) (hlt : outer < scope) :
    table.resolve scope name = table.resolve outer name := by
  rw [resolve]
  simp only [hfound, hnone, henclosing, if_pos hlt]

theorem resolve_of_root (hfound : table.scopes[scope]? = some found) (hnone : found.find? name = none)
    (hroot : found.enclosing = none) : table.resolve scope name = none := by
  rw [resolve]
  simp only [hfound, hnone, hroot]

def Lexical (table : Table) (scope : ScopeId) : Prop :=
  ∃ found, table.scopes[scope]? = some found ∧ found.owner.isLexical = true

theorem Lexical.lt_size (h : table.Lexical scope) : scope < table.scopes.size := by
  obtain ⟨found, hfound, _⟩ := h
  exact (Array.getElem?_eq_some_iff.mp hfound).1

theorem lexical_addScope {owner : ScopeOwner} :
    (table.addScope owner outer).2.Lexical scope ↔
      table.Lexical scope ∨ scope = table.scopes.size ∧ owner.isLexical = true := by
  unfold Lexical
  rw [getElem?_scopes_addScope]
  by_cases hscope : scope = table.scopes.size
  · rw [if_pos hscope, hscope]
    simp
  · rw [if_neg hscope]
    simp [hscope]

/-- A scope before and after a symbol was added: it knows the symbol by its name, if it is the scope of the symbol. -/
structure Gains (table : Table) (symbol : Symbol) (scope : ScopeId) (before found : Scope) : Prop where
  owner : found.owner = before.owner
  enclosing : found.enclosing = before.enclosing
  find? : ∀ name, found.find? name =
    if symbol.scope = scope ∧ name = symbol.name then some table.symbols.size else before.find? name

theorem exists_gains {symbol : Symbol} {before : Scope} (hbefore : table.scopes[scope]? = some before) :
    ∃ found, (table.define symbol).2.scopes[scope]? = some found ∧ table.Gains symbol scope before found := by
  rw [getElem?_scopes_define, hbefore]
  by_cases hscope : symbol.scope = scope
  · refine ⟨_, if_pos hscope, rfl, rfl, fun name => ?_⟩
    by_cases hname : name = symbol.name
    · rw [if_pos ⟨hscope, hname⟩, hname, Scope.find?_insert_self]
    · rw [if_neg fun h => hname h.2, Scope.find?_insert_of_ne _ _ hname]
  · refine ⟨_, if_neg hscope, rfl, rfl, fun name => ?_⟩
    rw [if_neg fun h => hscope h.1]

theorem exists_gains_of_define {symbol : Symbol} (hfound : (table.define symbol).2.scopes[scope]? = some found) :
    ∃ before, table.scopes[scope]? = some before ∧ table.Gains symbol scope before found := by
  cases hbefore : table.scopes[scope]? with
  | none =>
      rw [getElem?_scopes_define, hbefore] at hfound
      simp at hfound
  | some before =>
      obtain ⟨gained, hgained, hgains⟩ := exists_gains hbefore
      obtain rfl : found = gained := Option.some.inj (hfound.symm.trans hgained)
      exact ⟨before, rfl, hgains⟩

theorem lexical_define {symbol : Symbol} : (table.define symbol).2.Lexical scope ↔ table.Lexical scope := by
  constructor
  · rintro ⟨found, hfound, hlexical⟩
    obtain ⟨before, hbefore, hgains⟩ := exists_gains_of_define hfound
    exact ⟨before, hbefore, hgains.owner ▸ hlexical⟩
  · rintro ⟨before, hbefore, hlexical⟩
    obtain ⟨found, hfound, hgains⟩ := exists_gains hbefore
    exact ⟨found, hfound, hgains.owner.symm ▸ hlexical⟩

/-- The later table has the same lexical scopes, and knows the symbols there were. -/
structure Agrees (table later : Table) : Prop where
  scopes : ∀ {scope : ScopeId} {found : Scope}, found.owner.isLexical = true →
    (later.scopes[scope]? = some found ↔ table.scopes[scope]? = some found)
  symbols : ∀ {id : SymbolId} {symbol : Symbol},
    table.symbols[id]? = some symbol → later.symbols[id]? = some symbol

namespace Agrees

theorem refl (table : Table) : table.Agrees table := ⟨fun _ => Iff.rfl, fun h => h⟩

theorem trans {last : Table} (h : table.Agrees later) (hlast : later.Agrees last) : table.Agrees last :=
  ⟨fun hlexical => (hlast.scopes hlexical).trans (h.scopes hlexical), fun hid => hlast.symbols (h.symbols hid)⟩

theorem lexical_iff (h : table.Agrees later) : later.Lexical scope ↔ table.Lexical scope := by
  constructor
  · rintro ⟨found, hfound, hlexical⟩
    exact ⟨found, (h.scopes hlexical).mp hfound, hlexical⟩
  · rintro ⟨found, hfound, hlexical⟩
    exact ⟨found, (h.scopes hlexical).mpr hfound, hlexical⟩

theorem addScope (symbol : SymbolId) : table.Agrees (table.addScope (.members symbol) outer).2 := by
  constructor
  · intro scope found hlexical
    rw [getElem?_scopes_addScope]
    by_cases hscope : scope = table.scopes.size
    · rw [if_pos hscope, hscope, Array.getElem?_eq_none (Nat.le_refl _)]
      simp only [Option.some.injEq, reduceCtorEq, iff_false]
      rintro rfl
      exact Bool.false_ne_true hlexical
    · rw [if_neg hscope]
  · intro id symbol hid
    exact hid

theorem symbols_push {symbol known : Symbol} (hid : table.symbols[id]? = some known) :
    (table.symbols.push symbol)[id]? = some known := by
  have hlt : id < table.symbols.size := (Array.getElem?_eq_some_iff.mp hid).1
  rw [Array.getElem?_push, if_neg (Nat.ne_of_lt hlt)]
  exact hid

/-- A symbol of a scope of members. -/
theorem define {symbol : Symbol} (h : ¬table.Lexical symbol.scope) : table.Agrees (table.define symbol).2 := by
  constructor
  · intro scope found hlexical
    rw [getElem?_scopes_define]
    by_cases hscope : symbol.scope = scope
    · rw [if_pos hscope]
      subst hscope
      constructor
      · intro hfound
        exact absurd (lexical_define.mp ⟨found, by rw [getElem?_scopes_define, if_pos rfl, hfound], hlexical⟩) h
      · intro hfound
        exact absurd ⟨found, hfound, hlexical⟩ h
    · rw [if_neg hscope]
  · intro id known hid
    exact symbols_push hid

end Agrees

/-- The names are those of the survey, and known as such in all lexical scopes. -/
structure Guards (table : Table) (names : List String) : Prop where
  /-- Every name has a symbol in the scope of the survey. -/
  complete : ∃ found, table.scopes[survey]? = some found ∧ found.owner.isLexical = true ∧
    ∀ name ∈ names, (found.find? name).isSome = true
  /-- A lexical scope other than that of the survey stands within an earlier one. -/
  nested : ∀ {scope : ScopeId} {found : Scope}, table.scopes[scope]? = some found → found.owner.isLexical = true →
    scope = survey ∧ found.enclosing = none ∨
      ∃ outer, found.enclosing = some outer ∧ outer < scope ∧ table.Lexical outer
  /-- What a lexical scope knows is managed just if its name is guarded. -/
  sound : ∀ {scope : ScopeId} {found : Scope} {name : String} {id : SymbolId},
    table.scopes[scope]? = some found → found.owner.isLexical = true → found.find? name = some id →
    ∃ symbol, table.symbols[id]? = some symbol ∧ (symbol.kind.isManaged = true ↔ name ∈ names)

namespace Guards

theorem lexical_survey (h : table.Guards names) : table.Lexical survey := by
  obtain ⟨found, hfound, hlexical, _⟩ := h.complete
  exact ⟨found, hfound, hlexical⟩

/-- From every lexical scope a name is managed just if it is guarded. -/
theorem isManaged_iff (h : table.Guards names) (hscope : table.Lexical scope) :
    table.isManaged scope name = true ↔ name ∈ names := by
  -- The look-up goes outwards, to scopes of smaller numbers.
  induction scope using Nat.strongRecOn with
  | ind scope ih =>
      obtain ⟨found, hfound, hlexical⟩ := hscope
      cases hknown : found.find? name with
      | some id =>
          obtain ⟨symbol, hsymbol, hmanaged⟩ := h.sound hfound hlexical hknown
          rw [isManaged, resolve_of_known hfound hknown]
          simpa [members?, hsymbol, SymbolKind.isManaged] using hmanaged
      | none =>
          rcases h.nested hfound hlexical with ⟨rfl, hroot⟩ | ⟨outer, houter, hlt, hlexical'⟩
          · rw [isManaged, resolve_of_root hfound hknown hroot]
            obtain ⟨first, hfirst, _, hcomplete⟩ := h.complete
            obtain rfl : found = first := Option.some.inj (hfound.symm.trans hfirst)
            simp only [Bool.false_eq_true, false_iff]
            intro hname
            have hsome := hcomplete name hname
            rw [hknown] at hsome
            exact Bool.false_ne_true hsome
          · have hsame := ih outer hlt hlexical'
            rw [isManaged, resolve_of_enclosing hfound hknown houter hlt]
            exact hsame

theorem empty : Table.empty.Guards [] := by
  have honly : ∀ {scope : ScopeId} {found : Scope}, Table.empty.scopes[scope]? = some found →
      scope = survey ∧ found = ⟨.survey, none, []⟩ := by
    intro scope found hfound
    cases scope with
    | zero => exact ⟨rfl, (Option.some.inj hfound).symm⟩
    | succ scope => exact absurd hfound (by simp [Table.empty])
  constructor
  · exact ⟨_, rfl, rfl, fun name hname => absurd hname List.not_mem_nil⟩
  · intro scope found hfound hlexical
    obtain ⟨rfl, rfl⟩ := honly hfound
    exact .inl ⟨rfl, rfl⟩
  · intro scope found name id hfound hlexical hknown
    obtain ⟨rfl, rfl⟩ := honly hfound
    exact absurd hknown (by simp [Scope.find?])

theorem of_agrees (h : table.Guards names) (hagrees : table.Agrees later) : later.Guards names := by
  constructor
  · obtain ⟨found, hfound, hlexical, hcomplete⟩ := h.complete
    exact ⟨found, (hagrees.scopes hlexical).mpr hfound, hlexical, hcomplete⟩
  · intro scope found hfound hlexical
    rcases h.nested ((hagrees.scopes hlexical).mp hfound) hlexical with hroot | ⟨outer, houter, hlt, hlexical'⟩
    · exact .inl hroot
    · exact .inr ⟨outer, houter, hlt, hagrees.lexical_iff.mpr hlexical'⟩
  · intro scope found name id hfound hlexical hknown
    obtain ⟨symbol, hsymbol, hmanaged⟩ := h.sound ((hagrees.scopes hlexical).mp hfound) hlexical hknown
    exact ⟨symbol, hagrees.symbols hsymbol, hmanaged⟩

/-- A new scope within a lexical one knows nothing yet. -/
theorem addScope (h : table.Guards names) (houter : table.Lexical outer) (owner : ScopeOwner) :
    (table.addScope owner outer).2.Guards names := by
  have hcases : ∀ {scope : ScopeId} {found : Scope}, (table.addScope owner outer).2.scopes[scope]? = some found →
      scope = table.scopes.size ∧ found = ⟨owner, some outer, []⟩ ∨ table.scopes[scope]? = some found := by
    intro scope found hfound
    rw [getElem?_scopes_addScope] at hfound
    by_cases hscope : scope = table.scopes.size
    · rw [if_pos hscope] at hfound
      exact .inl ⟨hscope, (Option.some.inj hfound).symm⟩
    · rw [if_neg hscope] at hfound
      exact .inr hfound
  constructor
  · obtain ⟨found, hfound, hlexical, hcomplete⟩ := h.complete
    have hlt : survey < table.scopes.size := h.lexical_survey.lt_size
    refine ⟨found, ?_, hlexical, hcomplete⟩
    rw [getElem?_scopes_addScope, if_neg (Nat.ne_of_lt hlt)]
    exact hfound
  · intro scope found hfound hlexical
    rcases hcases hfound with ⟨rfl, rfl⟩ | hfound
    · exact .inr ⟨outer, rfl, houter.lt_size, lexical_addScope.mpr (.inl houter)⟩
    · rcases h.nested hfound hlexical with hroot | ⟨next, hnext, hlt, hlexical'⟩
      · exact .inl hroot
      · exact .inr ⟨next, hnext, hlt, lexical_addScope.mpr (.inl hlexical')⟩
  · intro scope found name id hfound hlexical hknown
    rcases hcases hfound with ⟨rfl, rfl⟩ | hfound
    · exact absurd hknown (by simp [Scope.find?])
    · exact h.sound hfound hlexical hknown

/-- A new symbol keeps to other names if it is managed just when its name is among them, and if no lexical scope but
its own can know a name that was not among those there were. -/
theorem define {symbol : Symbol} {names' : List String} (h : table.Guards names)
    (hnew : symbol.kind.isManaged = true ↔ symbol.name ∈ names')
    (hother : ∀ name, name ≠ symbol.name → (name ∈ names' ↔ name ∈ names))
    (hscope : ∀ scope, table.Lexical scope → symbol.scope = scope ∨ (symbol.name ∈ names' ↔ symbol.name ∈ names)) :
    (table.define symbol).2.Guards names' := by
  constructor
  · obtain ⟨before, hbefore, hlexical, hcomplete⟩ := h.complete
    obtain ⟨found, hfound, hgains⟩ := exists_gains hbefore
    refine ⟨found, hfound, hgains.owner.symm ▸ hlexical, fun name hname => ?_⟩
    rw [hgains.find? name]
    by_cases hhere : symbol.scope = survey ∧ name = symbol.name
    · rw [if_pos hhere]
      rfl
    · rw [if_neg hhere]
      apply hcomplete
      by_cases heq : name = symbol.name
      · subst heq
        exact ((hscope survey h.lexical_survey).resolve_left fun hsame => hhere ⟨hsame, rfl⟩).mp hname
      · exact (hother name heq).mp hname
  · intro scope found hfound hlexical
    obtain ⟨before, hbefore, hgains⟩ := exists_gains_of_define hfound
    rw [hgains.owner] at hlexical
    rw [hgains.enclosing]
    rcases h.nested hbefore hlexical with hroot | ⟨outer, houter, hlt, hlexical'⟩
    · exact .inl hroot
    · exact .inr ⟨outer, houter, hlt, lexical_define.mpr hlexical'⟩
  · intro scope found name id hfound hlexical hknown
    obtain ⟨before, hbefore, hgains⟩ := exists_gains_of_define hfound
    rw [hgains.owner] at hlexical
    rw [hgains.find? name] at hknown
    by_cases hhere : symbol.scope = scope ∧ name = symbol.name
    · rw [if_pos hhere] at hknown
      obtain rfl := Option.some.inj hknown
      refine ⟨symbol, by simp, ?_⟩
      rw [hhere.2]
      exact hnew
    · rw [if_neg hhere] at hknown
      obtain ⟨known, hknown', hmanaged⟩ := h.sound hbefore hlexical hknown
      refine ⟨known, Agrees.symbols_push hknown', hmanaged.trans ?_⟩
      by_cases heq : name = symbol.name
      · subst heq
        exact ((hscope scope ⟨before, hbefore, hlexical⟩).resolve_left fun hsame => hhere ⟨hsame, rfl⟩).symm
      · exact (hother name heq).symm

end Guards

end Table

end Questionnaire
