import Mathlib.Data.Finset.Card
import Questionnaire.Proofs.Symbols.Inventory

/-! Which symbols names can reach. A symbol that its scope knows is found from there, in the survey, in an interlude or
in a block; a member is found behind the name of its question. But where another question of the same name replaces a
question, the members of the first one are still known in their scope, which no name leads to any more: they are counted
among the symbols of the table, and reached by no path. -/

namespace Questionnaire

namespace Table

/-- The name of the symbol, looked up in the scope in which it was defined, means something else by now. -/
def Replaced (table : Table) (id : SymbolId) : Prop :=
  ∃ symbol, table.symbols[id]? = some symbol ∧ table.resolve symbol.scope symbol.name ≠ some id

/-- A member of a symbol that has been replaced. -/
def Orphaned (table : Table) (id : SymbolId) : Prop :=
  ∃ owner member, table.Replaced owner ∧ table.resolveMember owner member = some id

def label? (table : Table) (id : SymbolId) : Option String := table.symbols[id]?.map fun symbol => symbol.kind.label

end Table

namespace Document

/-- The scope is that of the survey, or belongs to an interlude or a block of the document. -/
def Opens (document : Document) (table : Table) (scope : ScopeId) : Prop :=
  scope = Table.survey ∨ ∃ site node statements,
    (site, node) ∈ document.visits ∧ node.statements? = some statements ∧ table.scopeAt? site = some scope

/-- A name and the names of members behind it are resolved to the symbol, from a scope of the document. -/
def Reaches (document : Document) (table : Table) (id : SymbolId) : Prop :=
  ∃ scope path, document.Opens table scope ∧ path ≠ [] ∧ table.resolvePath scope path = some id

/-- No question with options has a later question of the same name. -/
def OptionsKept (document : Document) : Prop :=
  document.components.Pairwise fun earlier later =>
    earlier.optionNames = [] ∨ earlier.questionName? ≠ later.questionName?

instance (document : Document) : Decidable document.OptionsKept :=
  inferInstanceAs (Decidable (document.components.Pairwise _))

end Document

theorem le_lastSome? {α β : Type} {f : α → Option β} {values : List α} {index last : Nat} {value : α}
    {result found : β} (hvalue : values[index]? = some value) (hresult : f value = some result)
    (hlast : lastSome? f values = some (last, found)) : index ≤ last := by
  induction values using List.reverseRecOn with
  | nil => cases hvalue
  | append_singleton values other ih =>
      have hbound := (List.getElem?_eq_some_iff.mp hvalue).1
      rw [List.length_append, List.length_singleton] at hbound
      rw [lastSome?_concat] at hlast
      cases hother : f other with
      | some here =>
          rw [hother] at hlast
          cases hlast
          exact Nat.le_of_lt_succ hbound
      | none =>
          rw [hother] at hlast
          rw [List.getElem?_append] at hvalue
          split at hvalue
          next => exact ih hvalue hlast
          next hle =>
            obtain rfl : other = value := by
              rw [List.getElem?_singleton] at hvalue
              split at hvalue
              next => exact Option.some.inj hvalue
              next => cases hvalue
            rw [hother] at hresult
            cases hresult

namespace Table

variable {table : Table} {log : Log} {scope : ScopeId} {name member : String} {id owner : SymbolId} {symbol : Symbol}

theorem Records.exists_symbol (h : table.Records log) (hknown : table.known? scope name = some id) :
    ∃ symbol, table.symbols[id]? = some symbol ∧ symbol.scope = scope ∧ symbol.name = name := by
  rw [h.known, Log.latest?] at hknown
  obtain ⟨⟨index, ⟨⟩⟩, hlast, rfl⟩ := Option.map_eq_some_iff.mp hknown
  obtain ⟨symbol, hsymbol, hguard⟩ := exists_of_lastSome? hlast
  rw [← h.symbols, Array.getElem?_toList] at hsymbol
  by_cases hsame : symbol.scope = scope ∧ name = symbol.name
  · exact ⟨symbol, hsymbol, hsame.1, hsame.2.symm⟩
  · rw [guard, if_neg hsame] at hguard
    cases hguard

theorem Records.exists_known (h : table.Records log) (hsymbol : table.symbols[id]? = some symbol) :
    ∃ other, table.known? symbol.scope symbol.name = some other := by
  rw [← Option.isSome_iff_exists, h.known, Log.isSome_latest?_iff, Log.keys, ← h.symbols]
  rw [← Array.getElem?_toList] at hsymbol
  exact List.mem_map_of_mem (List.mem_of_getElem? hsymbol)

theorem find?_eq_some_iff {found : Scope} (h : (found.entries.map Prod.fst).Nodup) :
    found.find? name = some id ↔ (name, id) ∈ found.entries := by
  have hmem {other : SymbolId} (hfind : found.find? name = some other) : (name, other) ∈ found.entries := by
    obtain ⟨before, after, heq, -⟩ := List.lookup_eq_some_iff.mp hfind
    rw [heq]
    exact List.mem_append_right before List.mem_cons_self
  constructor
  · exact hmem
  · intro hentry
    obtain ⟨other, hother⟩ := Option.isSome_iff_exists.mp
      ((isSome_find?_iff found name).mpr (List.mem_map_of_mem hentry))
    rw [hother]
    exact congrArg some (congrArg Prod.snd (List.inj_on_of_nodup_map h (hmem hother) hentry rfl))

theorem Unambiguous.mem_reachable_iff (h : table.Unambiguous) :
    id ∈ table.reachable ↔ ∃ scope name, table.known? scope name = some id := by
  rw [reachable, List.mem_flatMap]
  constructor
  · rintro ⟨found, hfound, hid⟩
    obtain ⟨⟨name, id⟩, hentry, rfl⟩ := List.mem_map.mp hid
    obtain ⟨scope, hscope⟩ := List.mem_iff_getElem?.mp hfound
    rw [Array.getElem?_toList] at hscope
    refine ⟨scope, name, ?_⟩
    rw [known?, hscope, Option.bind_some]
    exact (find?_eq_some_iff (h scope found hscope)).mpr hentry
  · rintro ⟨scope, name, hknown⟩
    obtain ⟨found, hfound, hfind⟩ := Option.bind_eq_some_iff.mp hknown
    refine ⟨found, ?_, List.mem_map.mpr ⟨(name, id), (find?_eq_some_iff (h scope found hfound)).mp hfind, rfl⟩⟩
    rw [← Array.getElem?_toList] at hfound
    exact List.mem_of_getElem? hfound

/-- A symbol is known in one scope and by one name, so that it is listed once. -/
theorem Records.nodup_reachable (h : table.Records log) : table.reachable.Nodup := by
  let key (id : SymbolId) : Option (ScopeId × String) :=
    table.symbols[id]?.map fun symbol => (symbol.scope, symbol.name)
  have hzip := List.flatMap_map Prod.fst (fun found : Scope => found.entries.map Prod.snd) table.scopes.toList.zipIdx
  rw [List.zipIdx_map_fst] at hzip
  have hkeys : table.reachable.map key = table.keys.map some := by
    rw [reachable, hzip, keys, List.map_flatMap, List.map_flatMap]
    refine List.flatMap_congr fun found hfound => ?_
    rw [List.map_map, List.map_map]
    refine List.map_congr_left fun entry hentry => ?_
    have hscope := List.mem_zipIdx_iff_getElem?.mp hfound
    rw [Array.getElem?_toList] at hscope
    have hknown : table.known? found.2 entry.1 = some entry.2 := by
      rw [known?, hscope, Option.bind_some]
      exact (find?_eq_some_iff (h.unambiguous found.2 found.1 hscope)).mpr hentry
    obtain ⟨symbol, hsymbol, hdefined, hname⟩ := h.exists_symbol hknown
    show table.symbols[entry.2]?.map _ = some (found.2, entry.1)
    rw [hsymbol, Option.map_some, hdefined, hname]
  refine List.Nodup.of_map key ?_
  rw [hkeys]
  exact h.unambiguous.nodup_keys.map (Option.some_injective _)

theorem label_mem_labels (kind : SymbolKind) : kind.label ∈ SymbolKind.labels := by
  cases kind <;> simp [SymbolKind.label, SymbolKind.labels]

theorem mem_counts_iff {label : String} {count : Nat} : (label, count) ∈ table.counts ↔
    count ≠ 0 ∧ count = table.reachable.countP fun id => table.label? id = some label := by
  have hcount (label : String) : (table.reachable.filterMap table.label?).count label =
      table.reachable.countP fun id => table.label? id = some label := by
    rw [List.count_filterMap]
    exact List.countP_congr fun id _ => by simp
  have hcounts : table.counts = SymbolKind.labels.filterMap fun label =>
      if (table.reachable.filterMap table.label?).count label = 0 then none
      else some (label, (table.reachable.filterMap table.label?).count label) := rfl
  rw [hcounts, List.mem_filterMap, ← hcount]
  constructor
  · rintro ⟨other, -, hfound⟩
    split at hfound
    next => cases hfound
    next hne =>
      cases hfound
      exact ⟨hne, rfl⟩
  · rintro ⟨hne, rfl⟩
    obtain ⟨id, -, hlabel⟩ := List.mem_filterMap.mp (List.count_pos_iff.mp (Nat.pos_of_ne_zero hne))
    obtain ⟨symbol, -, rfl⟩ := Option.map_eq_some_iff.mp hlabel
    exact ⟨symbol.kind.label, label_mem_labels symbol.kind, if_neg hne⟩

theorem resolveMember_eq_some_iff : table.resolveMember owner member = some id ↔
    ∃ members, table.members? owner = some members ∧ table.known? members member = some id :=
  Option.bind_eq_some_iff

variable {document : Document}

/-- What was defined before the walk is in the table of the document. -/
theorem getElem?_of_listed (h : ofDocument document = .ok table)
    (hsymbol : (surveySymbols document.components)[id]? = some symbol) : table.symbols[id]? = some symbol := by
  apply (built_of_ofDocument h).surveyed.grows.symbols
  rw [(housed_ofQuestions document).getElem?_symbols]
  exact hsymbol

/-- Questions and their options have members, in the scope with the number after that of the symbol. -/
theorem members?_eq_some_iff (h : ofDocument document = .ok table) {members : ScopeId} :
    table.members? id = some members ↔ id < (surveySymbols document.components).length ∧ members = id + 1 := by
  obtain ⟨-, declared, hsymbols, hdeclared⟩ := symbols_of_ofDocument h
  constructor
  · intro hmembers
    obtain ⟨symbol, hsymbol, hkind⟩ := Option.bind_eq_some_iff.mp hmembers
    rw [← Array.getElem?_toList, hsymbols, List.getElem?_append] at hsymbol
    split at hsymbol
    next hlt => exact ⟨hlt, Option.some.inj (hkind.symm.trans (members?_of_listed hsymbol))⟩
    next =>
      -- a declaration has no members
      have hmem : (symbol.node, symbol.name, symbol.kind) ∈ document.visits.filterMap Declaring.declared? := by
        rw [← hdeclared]
        exact List.mem_map_of_mem (List.mem_of_getElem? hsymbol)
      obtain ⟨visit, -, hvisit⟩ := List.mem_filterMap.mp hmem
      have hmanaged := Declaring.isManaged_of_declared? hvisit
      rw [SymbolKind.isManaged, hkind] at hmanaged
      cases hmanaged
  · rintro ⟨hlt, rfl⟩
    obtain ⟨symbol, hsymbol⟩ : ∃ symbol, (surveySymbols document.components)[id]? = some symbol :=
      ⟨_, List.getElem?_eq_getElem hlt⟩
    rw [members?, getElem?_of_listed h hsymbol]
    exact members?_of_listed hsymbol

theorem size_ofQuestions (document : Document) :
    (ofQuestions document).scopes.size = (surveySymbols document.components).length + 1 :=
  (housed_ofQuestions document).size

/-- The walk leaves the scopes of members as they are. -/
theorem known?_eq_of_lt (h : ofDocument document = .ok table) (hlt : scope < (ofQuestions document).scopes.size)
    (name : String) : table.known? scope name = (ofQuestions document).known? scope name :=
  (built_of_ofDocument h).surveyed.grows.known scope hlt nofun name

/-- The members that are known are those of questions: nothing is defined in an option. -/
theorem exists_asking_of_known (h : ofDocument document = .ok table) (hne : scope ≠ survey)
    (hlt : scope < (ofQuestions document).scopes.size) (hknown : table.known? scope member = some id) :
    ∃ owner index q name, Asking document.components owner index q name ∧ scope = owner + 1 ∧
      ∃ option ∈ q.options, option.name? = some member := by
  have hhoused := housed_ofQuestions document
  obtain ⟨log, hlog⟩ := hhoused.records
  rw [known?_eq_of_lt h hlt] at hknown
  obtain ⟨symbol, hsymbol, rfl, rfl⟩ := hlog.exists_symbol hknown
  rw [hhoused.getElem?_symbols] at hsymbol
  exact exists_asking_of_scope hsymbol hne

theorem exists_asking_of_resolveMember (h : ofDocument document = .ok table)
    (hmember : table.resolveMember owner member = some id) :
    ∃ index q name, Asking document.components owner index q name ∧ table.known? (owner + 1) member = some id ∧
      ∃ option ∈ q.options, option.name? = some member := by
  obtain ⟨members, hmembers, hknown⟩ := resolveMember_eq_some_iff.mp hmember
  obtain ⟨hlt, rfl⟩ := (members?_eq_some_iff h).mp hmembers
  have hscope : owner + 1 < (ofQuestions document).scopes.size := by
    rw [size_ofQuestions]
    exact Nat.succ_lt_succ hlt
  obtain ⟨first, index, q, name, hasking, hsame, hoption⟩ :=
    exists_asking_of_known h (Nat.succ_ne_zero owner) hscope hknown
  obtain rfl := Nat.succ.inj hsame
  exact ⟨index, q, name, hasking, hknown, hoption⟩

end Table

section Analyzed

open Table

variable {document : Document} {table : Table} {scope : ScopeId} {name member : String} {id owner : SymbolId}
  {symbol : Symbol} {index : Nat} {q : Question}

theorem Asking.resolveMember_eq (hasking : Asking document.components owner index q name)
    (h : ofDocument document = .ok table) (hknown : table.known? (owner + 1) member = some id) :
    table.resolveMember owner member = some id :=
  resolveMember_of_known (getElem?_of_listed h hasking.symbol) rfl hknown

namespace Document

theorem Opens.survey_or_le (h : document.Opens table scope) (hbuilt : Built document table) :
    scope = survey ∨ (ofQuestions document).scopes.size ≤ scope := by
  rcases h with hsurvey | ⟨site, node, statements, hvisit, hnode, hscope⟩
  · exact .inl hsurvey
  · obtain ⟨found, outer, hat⟩ := hbuilt.exists_at (statementsAt?_of_mem_visits hvisit hnode)
    obtain rfl := Option.some.inj (hat.scopeAt.symm.trans hscope)
    exact .inr hat.new

theorem owners_of_ofDocument (h : ofDocument document = .ok table) :
    table.owners = (ofQuestions document).owners ++ document.visits.filterMap Declaring.opened? := by
  rw [ofDocument_eq] at h
  split at h
  next later hrun =>
    cases h
    exact Declaring.outlinesFrom_owners document.outlines hrun
  next => cases h

theorem exists_statements {site : Place} {node : Node} {owner : ScopeOwner}
    (h : Declaring.opened? (site, node) = some owner) : ∃ statements, node.statements? = some statements := by
  cases node with
  | interlude i => exact ⟨i.statements, rfl⟩
  | block b => exact ⟨b.statements, rfl⟩
  | _ => cases h

/-- All scopes that the walk has opened are those of interludes and blocks. -/
theorem opens_of_le (h : ofDocument document = .ok table) (hle : (ofQuestions document).scopes.size ≤ scope)
    (hlt : scope < table.scopes.size) : document.Opens table scope := by
  have hbuilt := built_of_ofDocument h
  obtain ⟨site, statements, hsite, hsettled⟩ := hbuilt.surveyed.completes scope hle hlt
  obtain ⟨found, outer, hat⟩ := hbuilt.exists_at hsite
  obtain rfl := hbuilt.distinct.eq hat.settled.owner hsettled.owner
  obtain ⟨owner, howner, hplace⟩ := Option.bind_eq_some_iff.mp hsettled.owner
  rw [← getElem?_owners, owners_of_ofDocument h, List.getElem?_append_right (by simpa [owners] using hle)] at howner
  obtain ⟨⟨place, node⟩, hvisit, hopened⟩ := List.mem_filterMap.mp (List.mem_of_getElem? howner)
  obtain ⟨inner, hinner⟩ := exists_statements hopened
  obtain rfl : place = site := Option.some.inj ((Declaring.opened?_site hopened).symm.trans hplace)
  exact .inr ⟨place, node, inner, hvisit, hinner, hat.scopeAt⟩

theorem opens_of_known (h : ofDocument document = .ok table)
    (hscope : scope = survey ∨ (ofQuestions document).scopes.size ≤ scope)
    (hknown : table.known? scope name = some id) : document.Opens table scope := by
  rcases hscope with hsurvey | hle
  · exact .inl hsurvey
  · obtain ⟨found, hfound, -⟩ := Option.bind_eq_some_iff.mp hknown
    exact opens_of_le h hle (Array.getElem?_eq_some_iff.mp hfound).1

/-- A name is found in the scope itself or in another one of the document. -/
theorem Opens.exists_known (hopens : document.Opens table scope) (h : ofDocument document = .ok table)
    (hresolve : table.resolve scope name = some id) :
    ∃ other, document.Opens table other ∧ table.known? other name = some id := by
  have hbuilt := built_of_ofDocument h
  have hsurvey (hroot : table.resolve survey name = some id) :
      ∃ other, document.Opens table other ∧ table.known? other name = some id := by
    cases hknown : table.known? survey name with
    | none =>
        rw [hbuilt.resolve_survey_of_none hknown] at hroot
        cases hroot
    | some found =>
        rw [resolve_eq_of_known hknown] at hroot
        cases hroot
        exact ⟨survey, .inl rfl, hknown⟩
  rcases hopens with rfl | ⟨site, node, statements, hvisit, hnode, hscope⟩
  · exact hsurvey hresolve
  · revert hresolve
    refine hbuilt.site_induction (motive := fun _ scope => table.resolve scope name = some id →
      ∃ other, document.Opens table other ∧ table.known? other name = some id) hsurvey ?_
      (statementsAt?_of_mem_visits hvisit hnode) hscope
    intro site statements scope outer hsite hat houter hresolve
    cases hknown : table.known? scope name with
    | none =>
        rw [resolve_eq_outer hknown hat.enclosing hat.within] at hresolve
        exact houter hresolve
    | some found =>
        rw [resolve_eq_of_known hknown] at hresolve
        cases hresolve
        exact ⟨scope, opens_of_known h (.inr hat.new) hknown, hknown⟩

/-- Every path that is resolved comes down to one name, or to a question and one of its options. -/
theorem reaches_iff (h : ofDocument document = .ok table) : document.Reaches table id ↔
    (∃ scope name, document.Opens table scope ∧ table.known? scope name = some id) ∨
      ∃ name owner member, table.known? survey name = some owner ∧ table.resolveMember owner member = some id := by
  obtain ⟨⟨log, hlog⟩, -⟩ := symbols_of_ofDocument h
  -- a question is found in the survey only
  have hsurvey {scope : ScopeId} {name member : String} {owner id : SymbolId}
      (hknown : table.known? scope name = some owner) (hmember : table.resolveMember owner member = some id) :
      scope = survey := by
    obtain ⟨symbol, hsymbol, hscope, -⟩ := hlog.exists_symbol hknown
    obtain ⟨index, q, known, hasking, -⟩ := exists_asking_of_resolveMember h hmember
    obtain rfl := Option.some.inj (hsymbol.symm.trans (getElem?_of_listed h hasking.symbol))
    exact hscope.symm
  constructor
  · rintro ⟨scope, path, hopens, hne, hpath⟩
    cases path with
    | nil => exact absurd rfl hne
    | cons name members =>
        obtain ⟨first, hfirst, hmembers⟩ := Option.bind_eq_some_iff.mp hpath
        obtain ⟨other, hother, hknown⟩ := hopens.exists_known h hfirst
        cases members with
        | nil =>
            cases hmembers
            exact .inl ⟨other, name, hother, hknown⟩
        | cons member members =>
            obtain ⟨second, hsecond, hmembers⟩ := Option.bind_eq_some_iff.mp hmembers
            obtain rfl := hsurvey hknown hsecond
            cases members with
            | nil =>
                cases hmembers
                exact .inr ⟨name, first, member, hknown, hsecond⟩
            | cons further members =>
                -- an option has no members
                obtain ⟨third, hthird, -⟩ := Option.bind_eq_some_iff.mp hmembers
                obtain ⟨index, q, known, -, hoption, -⟩ := exists_asking_of_resolveMember h hsecond
                exact absurd (hsurvey hoption hthird) (Nat.succ_ne_zero first)
  · rintro (⟨scope, name, hopens, hknown⟩ | ⟨name, owner, member, hknown, hmember⟩)
    · refine ⟨scope, [name], hopens, List.cons_ne_nil _ _, ?_⟩
      rw [resolvePath, resolve_eq_of_known hknown]
      rfl
    · refine ⟨survey, [name, member], .inl rfl, List.cons_ne_nil _ _, ?_⟩
      rw [resolvePath, resolve_eq_of_known hknown]
      exact (Option.bind_some _ _).trans (by rw [List.foldlM_cons, hmember]; rfl)

/-- What is reached is no member of a replaced question. -/
theorem Reaches.not_orphaned (hreaches : document.Reaches table id) (h : ofDocument document = .ok table) :
    ¬table.Orphaned id := by
  rintro ⟨owner, member, ⟨symbol, hsymbol, hreplaced⟩, hmember⟩
  obtain ⟨⟨log, hlog⟩, -⟩ := symbols_of_ofDocument h
  obtain ⟨index, q, name, hasking, hknown, -⟩ := exists_asking_of_resolveMember h hmember
  obtain rfl := Option.some.inj (hsymbol.symm.trans (getElem?_of_listed h hasking.symbol))
  obtain ⟨option, hoption, hscope, -⟩ := hlog.exists_symbol hknown
  rcases (reaches_iff h).mp hreaches with ⟨scope, other, hopens, hother⟩ | ⟨other, first, found, hother, hfound⟩
  · obtain ⟨same, hsame, hdefined, -⟩ := hlog.exists_symbol hother
    obtain rfl := Option.some.inj (hoption.symm.trans hsame)
    have hlt := (List.getElem?_eq_some_iff.mp hasking.symbol).1
    rcases hopens.survey_or_le (built_of_ofDocument h) with hsurvey | hle
    · exact Nat.succ_ne_zero owner (hscope.symm.trans (hdefined.trans hsurvey))
    · rw [size_ofQuestions, ← hdefined, hscope] at hle
      exact Nat.not_le_of_lt (Nat.succ_lt_succ hlt) hle
  · obtain ⟨index', q', name', hasking', hfound, -⟩ := exists_asking_of_resolveMember h hfound
    obtain ⟨same, hsame, hdefined, -⟩ := hlog.exists_symbol hfound
    obtain rfl := Option.some.inj (hoption.symm.trans hsame)
    obtain rfl : owner = first := Nat.succ.inj (hscope.symm.trans hdefined)
    obtain ⟨question, hquestion, -, rfl⟩ := hlog.exists_symbol hother
    obtain rfl := Option.some.inj (hsymbol.symm.trans hquestion)
    exact hreplaced (resolve_eq_of_known hother)

theorem mem_reachable_iff (h : ofDocument document = .ok table) :
    id ∈ table.reachable ↔ document.Reaches table id ∨ table.Orphaned id := by
  obtain ⟨⟨log, hlog⟩, -⟩ := symbols_of_ofDocument h
  rw [hlog.unambiguous.mem_reachable_iff]
  constructor
  · rintro ⟨scope, name, hknown⟩
    by_cases hopens : scope = survey ∨ (ofQuestions document).scopes.size ≤ scope
    · exact .inl ((reaches_iff h).mpr (.inl ⟨scope, name, opens_of_known h hopens hknown, hknown⟩))
    · rw [not_or, Nat.not_le] at hopens
      obtain ⟨owner, index, q, question, hasking, rfl, -⟩ := exists_asking_of_known h hopens.1 hopens.2 hknown
      have hmember := hasking.resolveMember_eq h hknown
      by_cases hresolve : table.resolve survey question = some owner
      · obtain ⟨other, hother, hfound⟩ := Opens.exists_known (.inl rfl) h hresolve
        obtain ⟨symbol, hsymbol, rfl, -⟩ := hlog.exists_symbol hfound
        obtain rfl := Option.some.inj (hsymbol.symm.trans (getElem?_of_listed h hasking.symbol))
        exact .inl ((reaches_iff h).mpr (.inr ⟨question, owner, name, hfound, hmember⟩))
      · exact .inr ⟨owner, name, ⟨_, getElem?_of_listed h hasking.symbol, hresolve⟩, hmember⟩
  · rintro (hreaches | ⟨owner, member, -, hmember⟩)
    · rcases (reaches_iff h).mp hreaches with ⟨scope, name, -, hknown⟩ | ⟨name, owner, member, -, hmember⟩
      · exact ⟨scope, name, hknown⟩
      · obtain ⟨members, -, hknown⟩ := resolveMember_eq_some_iff.mp hmember
        exact ⟨members, member, hknown⟩
    · obtain ⟨members, -, hknown⟩ := resolveMember_eq_some_iff.mp hmember
      exact ⟨members, member, hknown⟩

/-- The survey knows the last question of a name. -/
theorem exists_last (h : ofDocument document = .ok table) (hindex : document.components[index]? = some (.question q))
    (hname : q.name? = some name) : ∃ last other id members,
      document.components[last]? = some (.question other) ∧ other.name? = some name ∧ index ≤ last ∧
        table.resolve survey name = some id ∧
          table.symbols[id]? = some ⟨name, .question members, [last], survey, other.span.first.position⟩ := by
  have hquestion : Component.question? name (.question q) = some q := if_pos hname
  have hasks := (built_of_ofDocument h).asks_survey name
  obtain ⟨⟨last, other⟩, hlast⟩ := exists_lastSome? hindex hquestion
  have hle := le_lastSome? hindex hquestion hlast
  rw [hlast] at hasks
  obtain ⟨id, members, hknown, hsymbol⟩ := hasks
  obtain ⟨component, hcomponent, hfound⟩ := exists_of_lastSome? hlast
  obtain ⟨q', rfl, hother⟩ := exists_question (questionName?_of_question? hfound)
  obtain rfl : q' = other := Option.some.inj ((if_pos hother).symm.trans hfound)
  exact ⟨last, q', id, members, hcomponent, hother, hle, resolve_eq_of_known hknown, hsymbol⟩

/-- A question is replaced just if its name is that of a later one. -/
theorem replaced_iff (h : ofDocument document = .ok table) (hasking : Asking document.components owner index q name) :
    table.Replaced owner ↔ ∃ later other, index < later ∧ document.components[later]? = some (.question other) ∧
      other.name? = some name := by
  have howner := getElem?_of_listed h hasking.symbol
  constructor
  · rintro ⟨symbol, hsymbol, hreplaced⟩
    obtain rfl := Option.some.inj (hsymbol.symm.trans howner)
    obtain ⟨last, other, id, members, hcomponent, hother, hle, hresolve, hfound⟩ :=
      exists_last h hasking.component hasking.named
    refine ⟨last, other, Nat.lt_of_le_of_ne hle fun hsame => hreplaced (hresolve.trans (congrArg some ?_)), hcomponent,
      hother⟩
    -- the symbol that is found has members too, so that it is that of the same question
    have hmembers : table.members? id = some members := by
      rw [members?, hfound]
      rfl
    have hlt := ((members?_eq_some_iff h).mp hmembers).1
    have hlisted := List.getElem?_eq_getElem hlt
    have hsame' := Option.some.inj ((getElem?_of_listed h hlisted).symm.trans hfound)
    refine eq_of_node hlisted hasking.symbol ?_
    rw [hsame', ← hsame]
  · rintro ⟨later, other, hlt, hcomponent, hother⟩
    refine ⟨_, howner, fun hsame => ?_⟩
    obtain ⟨last, other, id, members, -, -, hle, hresolve, hfound⟩ := exists_last h hcomponent hother
    obtain rfl : id = owner := Option.some.inj (hresolve.symm.trans hsame)
    obtain ⟨rfl, -⟩ := List.cons.inj (congrArg Symbol.node (Option.some.inj (hfound.symm.trans howner)))
    exact Nat.not_le_of_lt hlt hle

theorem exists_orphaned_iff (h : ofDocument document = .ok table) : (∃ id, table.Orphaned id) ↔
    ∃ owner index q name, Asking document.components owner index q name ∧ table.Replaced owner ∧
      q.options.filterMap AnswerOption.name? ≠ [] := by
  constructor
  · rintro ⟨id, owner, member, hreplaced, hmember⟩
    obtain ⟨index, q, name, hasking, -, option, hoption, hname⟩ := exists_asking_of_resolveMember h hmember
    exact ⟨owner, index, q, name, hasking, hreplaced,
      List.ne_nil_of_mem (List.mem_filterMap.mpr ⟨option, hoption, hname⟩)⟩
  · rintro ⟨owner, index, q, name, hasking, hreplaced, hoptions⟩
    obtain ⟨member, hmember⟩ := List.exists_mem_of_ne_nil _ hoptions
    obtain ⟨option, hoption, hname⟩ := List.mem_filterMap.mp hmember
    rw [← Question.map_snd_members] at hoption
    obtain ⟨kept, hkept, rfl⟩ := List.mem_map.mp hoption
    obtain ⟨number, hnumber⟩ := List.mem_iff_getElem?.mp hkept
    obtain ⟨offset, hsymbol⟩ := exists_memberSymbols hnumber hname
    have hhoused := housed_ofQuestions document
    obtain ⟨log, hlog⟩ := hhoused.records
    have hlisted := hasking.options hsymbol
    rw [← hhoused.getElem?_symbols] at hlisted
    obtain ⟨id, hknown⟩ := hlog.exists_known hlisted
    have hlt : owner + 1 < (ofQuestions document).scopes.size := by
      rw [size_ofQuestions]
      exact Nat.succ_lt_succ (List.getElem?_eq_some_iff.mp hasking.symbol).1
    rw [← known?_eq_of_lt h hlt] at hknown
    exact ⟨id, owner, member, hreplaced, hasking.resolveMember_eq h hknown⟩

/-- There are members of replaced questions just if a question with options has a later one of its name. -/
theorem optionsKept_iff (hlegal : document.Legal) (h : ofDocument document = .ok table) :
    document.OptionsKept ↔ ∀ id, ¬table.Orphaned id := by
  rw [← not_exists, exists_orphaned_iff h, OptionsKept, List.pairwise_iff_getElem]
  constructor
  · rintro hkept ⟨owner, index, q, name, hasking, hreplaced, hoptions⟩
    obtain ⟨later, other, hlt, hcomponent, hother⟩ := (replaced_iff h hasking).mp hreplaced
    obtain ⟨hindex, hquestion⟩ := List.getElem?_eq_some_iff.mp hasking.component
    obtain ⟨hlater, hcomponent⟩ := List.getElem?_eq_some_iff.mp hcomponent
    have hapart := hkept index later hindex hlater hlt
    rw [hquestion, hcomponent] at hapart
    rcases hapart with hnone | hne
    · exact hoptions hnone
    · exact hne (hasking.named.trans hother.symm)
  · intro hnone index later hindex hlater hlt
    by_contra hboth
    rw [not_or, ne_eq, not_not] at hboth
    obtain ⟨hoptions, hsame⟩ := hboth
    cases hcomponent : document.components[index] with
    | heading heading =>
        rw [hcomponent] at hoptions
        exact hoptions rfl
    | interlude interlude =>
        rw [hcomponent] at hoptions
        exact hoptions rfl
    | question q =>
        rw [hcomponent] at hoptions hsame
        have hfound := List.getElem?_eq_some_iff.mpr ⟨hindex, hcomponent⟩
        obtain ⟨name, hname⟩ := exists_ownerName (hlegal.components _ (List.mem_of_getElem? hfound)).1.attributes
        obtain ⟨other, hquestion, hother⟩ := exists_question (hsame.symm.trans hname)
        obtain ⟨owner, hasking⟩ := exists_asking hfound hname
        have hother' := List.getElem?_eq_some_iff.mpr ⟨hlater, hquestion⟩
        have hreplaced := (replaced_iff h hasking).mpr ⟨later, other, hlt, hother', hother⟩
        exact hnone ⟨owner, index, q, name, hasking, hreplaced, hoptions⟩

end Document

end Analyzed

/-- What a list without repetitions counts, where it holds just what either of two apart sets does. -/
theorem countP_eq_card {α : Type} [DecidableEq α] {values : List α} {left right : Finset α} (h : values.Nodup)
    (hmem : ∀ value, value ∈ values ↔ value ∈ left ∨ value ∈ right) (hapart : Disjoint left right) (holds : α → Prop)
    [DecidablePred holds] :
    values.countP (fun value => holds value) = (left.filter holds).card + (right.filter holds).card := by
  have hunion : values.toFinset = left ∪ right := by
    ext value
    rw [List.mem_toFinset, Finset.mem_union]
    exact hmem value
  rw [List.countP_eq_length_filter, ← List.toFinset_card_of_nodup (h.filter _), List.toFinset_filter, hunion]
  simp only [decide_eq_true_eq]
  rw [Finset.filter_union, Finset.card_union_of_disjoint (Finset.disjoint_filter_filter hapart)]

open Document in
/-- The table of what keeps the rules lists every symbol once that some path of names reaches from a scope of the
document, and with them the members of replaced questions, which none does: it counts both, over all and of each kind.
There are such members just if a question with options has a later one of its name. -/
theorem Table.mem_reachable_iff_of_analyze {document : Document} {table : Table} (h : document.analyze = .ok table) :
    table.reachable.Nodup ∧
      (∀ id, id ∈ table.reachable ↔ document.Reaches table id ∨ table.Orphaned id) ∧
      (∀ id, document.Reaches table id → ¬table.Orphaned id) ∧
      (document.OptionsKept ↔ ∀ id, ¬table.Orphaned id) ∧
      ∃ reached orphaned : Finset SymbolId,
        (∀ id, id ∈ reached ↔ document.Reaches table id) ∧ (∀ id, id ∈ orphaned ↔ table.Orphaned id) ∧
          table.size = reached.card + orphaned.card ∧
          ∀ label count, (label, count) ∈ table.counts ↔ count ≠ 0 ∧
            count = (reached.filter fun id => table.label? id = some label).card +
              (orphaned.filter fun id => table.label? id = some label).card := by
  classical
  obtain ⟨hlegal, hbuilt⟩ := of_analyze h
  obtain ⟨⟨log, hlog⟩, -⟩ := symbols_of_ofDocument hbuilt
  have hnodup := hlog.nodup_reachable
  have hmem (id : SymbolId) := @Document.mem_reachable_iff document table id hbuilt
  have hapart (id : SymbolId) (hreaches : document.Reaches table id) := hreaches.not_orphaned hbuilt
  refine ⟨hnodup, hmem, hapart, optionsKept_iff hlegal hbuilt, ?_⟩
  let reached := table.reachable.toFinset.filter fun id => document.Reaches table id
  let orphaned := table.reachable.toFinset.filter fun id => table.Orphaned id
  have hreached (id : SymbolId) : id ∈ reached ↔ document.Reaches table id := by
    rw [Finset.mem_filter, List.mem_toFinset, hmem]
    exact and_iff_right_of_imp .inl
  have horphaned (id : SymbolId) : id ∈ orphaned ↔ table.Orphaned id := by
    rw [Finset.mem_filter, List.mem_toFinset, hmem]
    exact and_iff_right_of_imp .inr
  have hdisjoint : Disjoint reached orphaned :=
    Finset.disjoint_left.mpr fun id hid hother => hapart id ((hreached id).mp hid) ((horphaned id).mp hother)
  have hcount := countP_eq_card hnodup (fun id => by rw [hmem, hreached, horphaned]) hdisjoint
  refine ⟨reached, orphaned, hreached, horphaned, ?_, fun label count => ?_⟩
  · have hall := hcount fun _ => True
    rwa [List.countP_eq_length.mpr (by simp), Finset.filter_true, Finset.filter_true] at hall
  · rw [mem_counts_iff, hcount]

/-- A question with a row, and a name that is declared. -/
theorem Table.mem_reachable_iff_of_analyze_declaration :
    ∃ document table, compile .standard "<<q @single_choice>>Q[r]A<% def x %>" = .ok document ∧
      document.analyze = .ok table ∧ ∀ id, id ∈ table.reachable ↔ document.Reaches table id := by
  have hkept : ((compile .standard "<<q @single_choice>>Q[r]A<% def x %>").toOption.any fun document =>
      decide document.OptionsKept) = true := by decide +kernel
  cases hcompile : compile .standard "<<q @single_choice>>Q[r]A<% def x %>" with
  | error diagnostic =>
      rw [hcompile] at hkept
      cases hkept
  | ok document =>
      rw [hcompile] at hkept
      obtain ⟨table, htable⟩ := Document.exists_analyze hcompile
      obtain ⟨-, hmem, -, hnone, -⟩ := mem_reachable_iff_of_analyze htable
      refine ⟨document, table, rfl, htable, fun id => (hmem id).trans ?_⟩
      exact or_iff_left (hnone.mp (of_decide_eq_true hkept) id)

/-- The row of a question that another one of its name replaces. -/
theorem Table.exists_reachable_not_reached :
    ∃ document table, compile .standard "<< q1 @single_choice >> A [r1] One << q1 @number >> B" = .ok document ∧
      document.analyze = .ok table ∧ ∃ id ∈ table.reachable, ¬document.Reaches table id := by
  have hkept : ((compile .standard "<< q1 @single_choice >> A [r1] One << q1 @number >> B").toOption.any
      fun document => !decide document.OptionsKept) = true := by decide +kernel
  cases hcompile : compile .standard "<< q1 @single_choice >> A [r1] One << q1 @number >> B" with
  | error diagnostic =>
      rw [hcompile] at hkept
      cases hkept
  | ok document =>
      rw [hcompile] at hkept
      obtain ⟨table, htable⟩ := Document.exists_analyze hcompile
      obtain ⟨hlegal, hbuilt⟩ := Document.of_analyze htable
      have hsome : ¬∀ id, ¬table.Orphaned id := by
        rw [← Document.optionsKept_iff hlegal hbuilt]
        exact of_decide_eq_false (Bool.not_eq_true' _ ▸ hkept)
      obtain ⟨id, horphaned⟩ := not_forall_not.mp hsome
      refine ⟨document, table, rfl, htable, id, (Document.mem_reachable_iff hbuilt).mpr (.inr horphaned), ?_⟩
      exact fun hreaches => hreaches.not_orphaned hbuilt horphaned

end Questionnaire
