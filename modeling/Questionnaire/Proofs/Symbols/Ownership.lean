import Questionnaire.Proofs.Symbols.Reachable
import Questionnaire.Proofs.Symbols.Standing

/-! Who owns the scopes and the symbols of a table. There is one scope of the survey, one of each interlude and each
block, and one of the members of each question, row and column, which is the one that the symbol records; and there is
one symbol of each node that gives a name its meaning. A document that keeps the rules names all its questions and
options, so that none is left out, and each scope lies in the scope of what most closely contains its owner. -/

namespace Questionnaire

namespace Node

/-- Questions, rows and columns: their names belong to the survey, and they have members. -/
def isManaged : Node → Bool
  | question _ => true
  | node => node.option?.isSome

/-- The node gives a name its meaning. -/
def isNaming : Node → Bool
  | statement s => s.declared?.isSome
  | node => node.isManaged

/-- The name of the node, and the kind of the symbol for it with a scope for its members. -/
def named? (members : ScopeId) : Node → Option (String × SymbolKind)
  | question q => q.name?.map fun name => (name, .question members)
  | row option => option.name?.map fun name => (name, .row members)
  | column option => option.name?.map fun name => (name, .column members)
  | statement s => s.declared?.map fun declared => (declared.1.text, declared.2)
  | _ => none

end Node

/-- The symbol is the one for the node at the place. -/
def Symbol.IsFor (symbol : Symbol) (visit : Place × Node) : Prop :=
  symbol.node = visit.1 ∧ ∃ members, visit.2.named? members = some (symbol.name, symbol.kind)

/-- The id is that of a symbol for the node at the place. -/
def Table.Names (table : Table) (id : SymbolId) (visit : Place × Node) : Prop :=
  ∃ symbol, table.symbols[id]? = some symbol ∧ symbol.IsFor visit

/-- Scopes and symbols belong one to one to the survey and to the nodes of the document. -/
structure Document.OwnedIn (document : Document) (table : Table) : Prop where
  survey : ∀ scope, table.owner? scope = some .survey ↔ scope = Table.survey
  sites : ∀ visit ∈ document.visits, ∀ owner, Declaring.opened? visit = some owner →
    ∃! scope, table.owner? scope = some owner
  owners : ∀ scope owner, table.owner? scope = some owner → owner = .survey ∨
    (∃ visit ∈ document.visits, Declaring.opened? visit = some owner) ∨
      ∃ id, ∃ visit ∈ document.visits, owner = .members id ∧ visit.2.isManaged = true ∧ table.Names id visit
  symbols : ∀ visit ∈ document.visits, visit.2.isNaming = true → ∃! id, table.Names id visit
  named : ∀ id < table.symbols.size, ∃ visit ∈ document.visits, visit.2.isNaming = true ∧ table.Names id visit
  housed : ∀ visit ∈ document.visits, visit.2.isManaged = true → ∀ id, table.Names id visit →
    ∃! scope, table.owner? scope = some (.members id)
  members : ∀ scope id, table.owner? scope = some (.members id) ↔ table.members? id = some scope
  recorded : ∀ scope id other, table.members? id = some scope → table.members? other = some scope → id = other
  /-- The members of a question lie in the survey. -/
  questions : ∀ place q id scope, (place, .question q) ∈ document.visits → table.Names id (place, .question q) →
    table.members? id = some scope → table.enclosing? scope = some Table.survey
  /-- The members of a row or a column lie in those of its question. -/
  options : ∀ number place node id scope, (number :: place, node) ∈ document.visits → node.option?.isSome = true →
    table.Names id (number :: place, node) → table.members? id = some scope →
      ∃ q owner members, (place, .question q) ∈ document.visits ∧ table.Names owner (place, .question q) ∧
        table.members? owner = some members ∧ table.enclosing? scope = some members
  interludes : ∀ scope place position, table.owner? scope = some (.interlude place position) →
    table.enclosing? scope = some Table.survey
  blocks : ∀ scope place position, table.owner? scope = some (.block place position) →
    ∃ site outer, document.Innermost place site ∧ (table.owner? outer).bind ScopeOwner.site? = some site ∧
      table.enclosing? scope = some outer
  known : ∀ scope name id, table.known? scope name = some id →
    ∃ symbol, table.symbols[id]? = some symbol ∧ symbol.name = name ∧ symbol.scope = scope

section Listed

variable {document : Document} {place : Place} {node : Node} {q : Question} {option : AnswerOption} {number : Nat}
  {id : SymbolId} {symbol : Symbol}

/-- The options of a question are the nodes below it, in the same order. -/
theorem Question.named?_option {member : KindedOption} (hnode : q.optionNodes[number]? = some node)
    (hmember : q.members[number]? = some member) (members : ScopeId) :
    node.named? members = member.2.name?.map fun name => (name, member.1 members) := by
  have hmap : q.optionNodes.map (Node.named? members) =
      q.members.map fun member => member.2.name?.map fun name => (name, member.1 members) := by
    simp only [optionNodes, Question.members, List.map_append, List.map_map]
    rfl
  have hnumber := congrArg (fun names => names[number]?) hmap
  simp only [List.getElem?_map, hnode, hmember, Option.map_some] at hnumber
  exact Option.some.inj hnumber

theorem Question.length_optionNodes (q : Question) : q.optionNodes.length = q.members.length := by
  simp [optionNodes, Question.members]

theorem Question.exists_member (h : q.optionNodes[number]? = some node) : ∃ member : KindedOption,
    q.members[number]? = some member ∧ member.2 ∈ q.options := by
  have hlt := (List.getElem?_eq_some_iff.mp h).1
  rw [length_optionNodes] at hlt
  refine ⟨_, List.getElem?_eq_getElem hlt, ?_⟩
  rw [← map_snd_members]
  exact List.mem_map_of_mem (List.getElem_mem hlt)

theorem Question.exists_optionNode {member : KindedOption} (h : q.members[number]? = some member) :
    ∃ node, q.optionNodes[number]? = some node := by
  have hlt := (List.getElem?_eq_some_iff.mp h).1
  rw [← length_optionNodes] at hlt
  exact ⟨_, List.getElem?_eq_getElem hlt⟩

theorem Question.option?_of_mem_optionNodes (h : node ∈ q.optionNodes) : ∃ option, node.option? = some option := by
  rcases List.mem_append.mp h with hrow | hcolumn
  · obtain ⟨option, -, rfl⟩ := List.mem_map.mp hrow
    exact ⟨option, rfl⟩
  · obtain ⟨option, -, rfl⟩ := List.mem_map.mp hcolumn
    exact ⟨option, rfl⟩

theorem Node.isManaged_of_option? (h : node.option? = some option) : node.isManaged = true := by
  cases node with
  | row => rfl
  | column => rfl
  | _ => cases h

theorem Node.isManaged_cases (h : node.isManaged = true) :
    (∃ q, node = .question q) ∨ ∃ option, node.option? = some option := by
  cases node with
  | question q => exact .inl ⟨q, rfl⟩
  | row option => exact .inr ⟨option, rfl⟩
  | column option => exact .inr ⟨option, rfl⟩
  | _ => cases h

theorem Node.isNaming_of_isManaged (h : node.isManaged = true) : node.isNaming = true := by
  cases node with
  | statement => cases h
  | _ => exact h

/-- A question that keeps the rules has a name, and thus a symbol. -/
theorem exists_asking_of_legal {index : Nat} (hlegal : document.Legal)
    (hcomponent : document.components[index]? = some (.question q)) :
    ∃ id name, Asking document.components id index q name := by
  obtain ⟨name, hname⟩ :=
    Document.exists_ownerName (hlegal.components _ (List.mem_of_getElem? hcomponent)).1.attributes
  obtain ⟨id, hasking⟩ := exists_asking hcomponent hname
  exact ⟨id, name, hasking⟩

theorem exists_asking_of_mem_visits (hlegal : document.Legal) (h : (place, .question q) ∈ document.visits) :
    ∃ id index name, place = [index] ∧ Asking document.components id index q name := by
  obtain ⟨index, hcomponent, rfl⟩ := Document.exists_question_of_mem_visits h
  obtain ⟨id, name, hasking⟩ := exists_asking_of_legal hlegal hcomponent
  exact ⟨id, index, name, rfl, hasking⟩

theorem Asking.isFor {index : Nat} {name : String} {components : List Component}
    (h : Asking components id index q name) :
    Symbol.IsFor ⟨name, .question (id + 1), [index], Table.survey, q.span.first.position⟩ ([index], .question q) := by
  refine ⟨rfl, id + 1, ?_⟩
  rw [Node.named?, h.named, Option.map_some]

/-- A row or a column has a symbol too, in the scope for the members of its question. -/
theorem exists_listed_option (hlegal : document.Legal) (h : (place, node) ∈ document.visits)
    (hnode : node.option? = some option) : ∃ owner index q name, ∃ (id : SymbolId) (symbol : Symbol),
      place.tail = [index] ∧ Asking document.components owner index q name ∧
        (surveySymbols document.components)[id]? = some symbol ∧ symbol.IsFor (place, node) ∧
          symbol.scope = owner + 1 := by
  obtain ⟨index, number, q, hcomponent, hnumber, rfl⟩ := (Document.mem_visits_option_iff hnode).mp h
  obtain ⟨owner, name, hasking⟩ := exists_asking_of_legal hlegal hcomponent
  obtain ⟨member, hmember, hoption⟩ := Question.exists_member hnumber
  have hquestion := hlegal.components _ (List.mem_of_getElem? hcomponent)
  obtain ⟨known, hknown⟩ : ∃ known, member.2.name? = some known :=
    Document.exists_ownerName (hquestion.2 member.2 hoption).attributes
  obtain ⟨offset, hsymbol⟩ := @exists_memberSymbols _ _ (owner + 1) [index] (owner + 1) q.offset _ _ hmember hknown
  refine ⟨owner, index, q, name, _, _, rfl, hasking, hasking.options hsymbol, ⟨rfl, owner + 1 + offset + 1, ?_⟩, rfl⟩
  rw [Question.named?_option hnumber hmember, hknown, Option.map_some]

/-- What is defined before the walk are questions, rows and columns. -/
theorem exists_managed_of_listed (h : (surveySymbols document.components)[id]? = some symbol) :
    ∃ visit ∈ document.visits, visit.2.isManaged = true ∧ symbol.IsFor visit := by
  obtain ⟨first, index, q, name, hasking, ⟨rfl, rfl⟩ | ⟨offset, rfl, hlisted⟩⟩ := exists_asking_of_listed h
  · exact ⟨([index], .question q), Document.component_mem_visits hasking.component, rfl, hasking.isFor⟩
  · obtain ⟨number, member, hmember, hname, heq⟩ := exists_of_memberSymbols hlisted
    obtain ⟨node, hnumber⟩ := Question.exists_optionNode hmember
    obtain ⟨option, hnode⟩ := Question.option?_of_mem_optionNodes (List.mem_of_getElem? hnumber)
    refine ⟨([q.offset + number, index], node), ?_, Node.isManaged_of_option? hnode, ?_⟩
    · exact (Document.mem_visits_option_iff hnode).mpr ⟨index, number, q, hasking.component, hnumber, rfl⟩
    · rw [heq]
      refine ⟨rfl, first + 1 + offset + 1, ?_⟩
      rw [Question.named?_option hnumber hmember, hname, Option.map_some]

end Listed

section Owned

open Table Declaring

variable {document : Document} {table : Table} {scope : ScopeId} {id other : SymbolId} {owner : ScopeOwner}
  {visit : Place × Node} {place : Place} {node : Node} {q : Question} {option : AnswerOption} {symbol : Symbol}
  {position : Position}

theorem Declaring.isNaming_of_declared? {name : String} {kind : SymbolKind}
    (h : declared? (place, node) = some (place, name, kind)) :
    node.isManaged = false ∧ node.isNaming = true ∧ ∀ members, node.named? members = some (name, kind) := by
  cases node with
  | statement s =>
      obtain ⟨declared, hdeclared, heq⟩ := Option.map_eq_some_iff.mp h
      cases heq
      refine ⟨rfl, ?_, fun members => ?_⟩
      · rw [Node.isNaming, hdeclared, Option.isSome_some]
      · rw [Node.named?, hdeclared, Option.map_some]
  | _ => cases h

theorem Declaring.declared?_place {name : String} {kind : SymbolKind} (h : declared? visit = some (place, name, kind)) :
    visit.1 = place := by
  obtain ⟨other, node⟩ := visit
  cases node with
  | statement s =>
      obtain ⟨declared, -, heq⟩ := Option.map_eq_some_iff.mp h
      exact congrArg Prod.fst heq
  | _ => cases h

namespace Document

/-- Where the symbols of a table come from: those of questions and options, and then those of declarations. -/
theorem exists_visit_of_symbol (h : ofDocument document = .ok table) (hsymbol : table.symbols[id]? = some symbol) :
    ∃ visit ∈ document.visits, visit.2.isNaming = true ∧ symbol.IsFor visit ∧
      (visit.2.isManaged = true ↔ id < (surveySymbols document.components).length) := by
  obtain ⟨-, declared, hsymbols, hdeclared⟩ := symbols_of_ofDocument h
  rw [← Array.getElem?_toList, hsymbols, List.getElem?_append] at hsymbol
  split at hsymbol
  next hlt =>
    obtain ⟨visit, hvisit, hmanaged, hfor⟩ := exists_managed_of_listed hsymbol
    exact ⟨visit, hvisit, Node.isNaming_of_isManaged hmanaged, hfor, iff_of_true hmanaged hlt⟩
  next hle =>
    have hmem : (symbol.node, symbol.name, symbol.kind) ∈ document.visits.filterMap declared? := by
      rw [← hdeclared]
      exact List.mem_map_of_mem (List.mem_of_getElem? hsymbol)
    obtain ⟨⟨place, node⟩, hvisit, hsome⟩ := List.mem_filterMap.mp hmem
    obtain rfl := declared?_place hsome
    obtain ⟨hmanaged, hnaming, hnamed⟩ := isNaming_of_declared? hsome
    refine ⟨(symbol.node, node), hvisit, hnaming, ⟨rfl, survey, hnamed survey⟩, ?_⟩
    exact iff_of_false (Bool.not_eq_true _ ▸ hmanaged) hle

/-- No two symbols are defined at one place. -/
theorem nodup_nodes (h : ofDocument document = .ok table) : (table.symbols.toList.map Symbol.node).Nodup := by
  obtain ⟨-, declared, hsymbols, hdeclared⟩ := symbols_of_ofDocument h
  have hplaces : declared.map Symbol.node = (document.visits.filterMap declared?).map Prod.fst := by
    rw [← hdeclared, List.map_map]
    rfl
  rw [hsymbols, List.map_append, List.nodup_append]
  refine ⟨nodup_surveySymbols document.components, ?_, fun node hlisted other hdeclares hsame => ?_⟩
  · rw [hplaces, List.Nodup, List.pairwise_map, List.pairwise_filterMap]
    refine (Outline.visitsFrom_pairwise document.outlines [] 0).imp ?_
    intro left right hne first hfirst second hsecond hequal
    exact hne ((declared?_place hfirst).trans (hequal.trans (declared?_place hsecond).symm))
  · -- no node is both a question or an option and a declaration
    subst hsame
    obtain ⟨symbol, hsymbol, rfl⟩ := List.mem_map.mp hlisted
    obtain ⟨id, hid⟩ := List.mem_iff_getElem?.mp hsymbol
    obtain ⟨⟨place, node⟩, hvisit, hmanaged, hfor⟩ := exists_managed_of_listed hid
    rw [hplaces] at hdeclares
    obtain ⟨⟨found, name, kind⟩, hfound, hplace⟩ := List.mem_map.mp hdeclares
    obtain ⟨⟨place', other⟩, hother, hdeclared⟩ := List.mem_filterMap.mp hfound
    obtain rfl : place' = found := declared?_place hdeclared
    obtain rfl : place' = place := hplace.trans hfor.1
    obtain rfl := eq_of_mem_visits hvisit hother
    exact Bool.eq_false_iff.mp (isNaming_of_declared? hdeclared).1 hmanaged

theorem eq_of_names (h : ofDocument document = .ok table) (hid : table.Names id visit)
    (hother : table.Names other visit) : id = other := by
  obtain ⟨symbol, hsymbol, hfor⟩ := hid
  obtain ⟨found, hfound, hfor'⟩ := hother
  rw [← Array.getElem?_toList] at hsymbol hfound
  have hlt : id < (table.symbols.toList.map Symbol.node).length := by
    rw [List.length_map]
    exact (List.getElem?_eq_some_iff.mp hsymbol).1
  refine (List.getElem?_inj hlt (nodup_nodes h)).mp ?_
  rw [List.getElem?_map, List.getElem?_map, hsymbol, hfound, Option.map_some, Option.map_some, hfor.1, hfor'.1]

/-- Every node that gives a name its meaning has a symbol. -/
theorem exists_names (hlegal : document.Legal) (h : ofDocument document = .ok table) (hvisit : visit ∈ document.visits)
    (hnaming : visit.2.isNaming = true) : ∃ id, table.Names id visit := by
  obtain ⟨place, node⟩ := visit
  by_cases hmanaged : node.isManaged = true
  · obtain ⟨q, rfl⟩ | ⟨option, hnode⟩ := Node.isManaged_cases hmanaged
    · obtain ⟨id, index, name, rfl, hasking⟩ := exists_asking_of_mem_visits hlegal hvisit
      exact ⟨id, _, getElem?_of_listed h hasking.symbol, hasking.isFor⟩
    · obtain ⟨owner, index, q, name, id, symbol, -, -, hsymbol, hfor, -⟩ := exists_listed_option hlegal hvisit hnode
      exact ⟨id, symbol, getElem?_of_listed h hsymbol, hfor⟩
  · cases node with
    | statement s =>
        obtain ⟨declared, hdeclared⟩ := Option.isSome_iff_exists.mp hnaming
        have hsome : declared? (place, .statement s) = some (place, declared.1.text, declared.2) := by
          rw [declared?, hdeclared, Option.map_some]
        obtain ⟨-, symbols, hsymbols, hall⟩ := symbols_of_ofDocument h
        have hmem := List.mem_filterMap.mpr ⟨_, hvisit, hsome⟩
        rw [← hall] at hmem
        obtain ⟨symbol, hsymbol, heq⟩ := List.mem_map.mp hmem
        have hlisted : symbol ∈ table.symbols.toList := by
          rw [hsymbols]
          exact List.mem_append_right _ hsymbol
        obtain ⟨id, hid⟩ := List.mem_iff_getElem?.mp hlisted
        rw [Array.getElem?_toList] at hid
        refine ⟨id, symbol, hid, congrArg Prod.fst heq, survey, ?_⟩
        exact ((isNaming_of_declared? hsome).2.2 survey).trans (congrArg some (congrArg Prod.snd heq).symm)
    | _ => exact absurd hnaming hmanaged

theorem owner?_members (h : ofDocument document = .ok table)
    (hlt : id < (surveySymbols document.components).length) : table.owner? (id + 1) = some (.members id) ∧
      table.enclosing? (id + 1) = ((surveySymbols document.components)[id]?).map Symbol.scope := by
  have hscope : id + 1 < (ofQuestions document).scopes.size := by
    rw [size_ofQuestions]
    exact Nat.succ_lt_succ hlt
  have hgrows := (built_of_ofDocument h).surveyed.grows
  have hframe := congrArg (fun frames => frames[id + 1]?) (housed_ofQuestions document).frames
  simp only [List.getElem?_cons_succ, List.getElem?_mapIdx, List.getElem?_eq_getElem hlt, Option.map_some,
    getElem?_frames] at hframe
  obtain ⟨found, hfound, heq⟩ := Option.map_eq_some_iff.mp hframe
  constructor
  · rw [hgrows.owner _ hscope, owner?, hfound]
    exact congrArg some (congrArg Prod.fst heq)
  · rw [hgrows.enclosing _ hscope, enclosing?, hfound, List.getElem?_eq_getElem hlt]
    exact congrArg Prod.snd heq

/-- What a scope belongs to: the survey comes first, then the symbols with members, and then what a walk comes to. -/
theorem owner?_cases (h : ofDocument document = .ok table) (howner : table.owner? scope = some owner) :
    (scope = survey ∧ owner = .survey) ∨
      (∃ id < (surveySymbols document.components).length, scope = id + 1 ∧ owner = .members id) ∨
        (ofQuestions document).scopes.size ≤ scope ∧ ∃ visit ∈ document.visits, opened? visit = some owner := by
  by_cases hlt : scope < (ofQuestions document).scopes.size
  · cases scope with
    | zero =>
        have hroot := ((built_of_ofDocument h).surveyed.grows.owner survey hlt).trans (asked_ofQuestions document).owner
        exact .inl ⟨rfl, Option.some.inj (howner.symm.trans hroot)⟩
    | succ id =>
        rw [size_ofQuestions] at hlt
        have hid := Nat.lt_of_succ_lt_succ hlt
        exact .inr (.inl ⟨id, hid, rfl, Option.some.inj (howner.symm.trans (owner?_members h hid).1)⟩)
  · have hle := Nat.le_of_not_lt hlt
    rw [← getElem?_owners, owners_of_ofDocument h, List.getElem?_append_right (by simpa [owners] using hle)] at howner
    exact .inr (.inr ⟨hle, List.mem_filterMap.mp (List.mem_of_getElem? howner)⟩)

/-- A scope with a place is that of an interlude or a block that a walk comes to. -/
theorem exists_opened (h : ofDocument document = .ok table) (howner : table.owner? scope = some owner)
    (hsite : owner.site? = some place) :
    ∃ node, (place, node) ∈ document.visits ∧ opened? (place, node) = some owner := by
  obtain ⟨-, rfl⟩ | ⟨id, -, -, rfl⟩ | ⟨-, ⟨found, node⟩, hvisit, hopened⟩ := owner?_cases h howner
  · cases hsite
  · cases hsite
  · obtain rfl : found = place := Option.some.inj ((opened?_site hopened).symm.trans hsite)
    exact ⟨node, hvisit, hopened⟩

theorem owner?_survey_iff (h : ofDocument document = .ok table) :
    table.owner? scope = some .survey ↔ scope = survey := by
  constructor
  · intro howner
    obtain ⟨hscope, -⟩ | ⟨id, -, -, heq⟩ | ⟨-, visit, -, hopened⟩ := owner?_cases h howner
    · exact hscope
    · cases heq
    · cases opened?_site hopened
  · rintro rfl
    have hroot := (asked_ofQuestions document).owner
    exact ((built_of_ofDocument h).surveyed.grows.owner survey (lt_size_of_owner? hroot)).trans hroot

theorem owner?_members_iff (h : ofDocument document = .ok table) :
    table.owner? scope = some (.members id) ↔ table.members? id = some scope := by
  rw [members?_eq_some_iff h]
  constructor
  · intro howner
    obtain ⟨-, heq⟩ | ⟨other, hlt, hscope, heq⟩ | ⟨-, visit, -, hopened⟩ := owner?_cases h howner
    · cases heq
    · cases heq
      exact ⟨hlt, hscope⟩
    · cases opened?_site hopened
  · rintro ⟨hlt, rfl⟩
    exact (owner?_members h hlt).1

theorem existsUnique_opened (h : ofDocument document = .ok table) (hvisit : visit ∈ document.visits)
    (hopened : opened? visit = some owner) : ∃! scope, table.owner? scope = some owner := by
  have hmem : owner ∈ table.owners := by
    rw [owners_of_ofDocument h]
    exact List.mem_append_right _ (List.mem_filterMap.mpr ⟨visit, hvisit, hopened⟩)
  obtain ⟨scope, hscope⟩ := List.mem_iff_getElem?.mp hmem
  rw [getElem?_owners] at hscope
  have hsite {found : ScopeId} (hfound : table.owner? found = some owner) :
      (table.owner? found).bind ScopeOwner.site? = some visit.1 := by
    rw [hfound, Option.bind_some, opened?_site hopened]
  exact ⟨scope, hscope, fun other hother => (built_of_ofDocument h).distinct.eq (hsite hother) (hsite hscope)⟩

theorem exists_at_of_owner (h : ofDocument document = .ok table) (howner : table.owner? scope = some owner)
    (hplace : owner.site? = some place) : ∃ node statements outer, (place, node) ∈ document.visits ∧
      opened? (place, node) = some owner ∧ document.statementsAt? place = some statements ∧
        At document table place statements scope outer := by
  have hbuilt := built_of_ofDocument h
  obtain ⟨node, hvisit, hopened⟩ := exists_opened h howner hplace
  obtain ⟨statements, hstatements⟩ := exists_statements hopened
  have hsite := statementsAt?_of_mem_visits hvisit hstatements
  obtain ⟨found, outer, hat⟩ := hbuilt.exists_at hsite
  have hscope : (table.owner? scope).bind ScopeOwner.site? = some place := by rw [howner, Option.bind_some, hplace]
  obtain rfl := hbuilt.distinct.eq hscope hat.settled.owner
  exact ⟨node, statements, outer, hvisit, hopened, hsite, hat⟩

theorem enclosing?_interlude (h : ofDocument document = .ok table)
    (howner : table.owner? scope = some (.interlude place position)) : table.enclosing? scope = some survey := by
  obtain ⟨node, statements, outer, hvisit, hopened, -, hat⟩ := exists_at_of_owner h howner rfl
  cases node with
  | interlude i =>
      obtain ⟨index, rfl⟩ := exists_interlude_of_mem_visits hvisit
      rw [hat.enclosing]
      exact hat.outerAt.symm
  | _ => cases hopened

/-- Only interludes stand directly in the document. -/
theorem drop_ne_nil_of_block {block : Block} (hvisit : (place, .block block) ∈ document.visits) :
    place.drop 2 ≠ [] := by
  intro hnil
  have hsite : document.statementsAt? place = some block.statements := statementsAt?_of_mem_visits hvisit rfl
  have hodd := odd_length_of_statementsAt? hsite
  have hle := List.drop_eq_nil_iff.mp hnil
  obtain ⟨index, rfl⟩ : ∃ index, place = [index] := List.length_eq_one_iff.mp (by omega)
  unfold statementsAt? at hsite
  split at hsite
  next i hcomponent => cases eq_of_mem_visits hvisit (component_mem_visits hcomponent)
  next => cases hsite

theorem exists_innermost (h : ofDocument document = .ok table)
    (howner : table.owner? scope = some (.block place position)) : ∃ site outer, document.Innermost place site ∧
      (table.owner? outer).bind ScopeOwner.site? = some site ∧ table.enclosing? scope = some outer := by
  obtain ⟨node, statements, outer, hvisit, hopened, hsite, hat⟩ := exists_at_of_owner h howner rfl
  cases node with
  | block block =>
      have hne := drop_ne_nil_of_block hvisit
      obtain ⟨others, hothers⟩ := hat.around.resolve_left hne
      obtain ⟨found, around, hfound⟩ := (built_of_ofDocument h).exists_at hothers
      obtain rfl := Option.some.inj (hat.outerAt.symm.trans hfound.scopeAt)
      refine ⟨place.drop 2, outer, ⟨?_, List.drop_suffix 2 place, fun hsame => ?_, ?_⟩, hfound.settled.owner,
        hat.enclosing⟩
      · obtain ⟨owner, howner, hplace⟩ := Option.bind_eq_some_iff.mp hfound.settled.owner
        obtain ⟨node, hvisit, hopened⟩ := exists_opened h howner hplace
        obtain ⟨inner, hinner⟩ := exists_statements hopened
        exact ⟨node, inner, hvisit, hinner⟩
      · have hpos := List.length_pos_of_ne_nil hne
        have hlength := congrArg List.length hsame
        rw [List.length_drop] at hpos hlength
        omega
      · intro other node inner hother hnode
        exact suffix_drop_of_statementsAt? hsite (statementsAt?_of_mem_visits hother hnode)
  | _ => cases hopened

theorem enclosing?_question (hlegal : document.Legal) (h : ofDocument document = .ok table)
    (hvisit : (place, .question q) ∈ document.visits) (hnames : table.Names id (place, .question q))
    (hmembers : table.members? id = some scope) : table.enclosing? scope = some survey := by
  obtain ⟨first, index, name, rfl, hasking⟩ := exists_asking_of_mem_visits hlegal hvisit
  obtain rfl := eq_of_names h hnames ⟨_, getElem?_of_listed h hasking.symbol, hasking.isFor⟩
  obtain ⟨hlt, rfl⟩ := (members?_eq_some_iff h).mp hmembers
  rw [(owner?_members h hlt).2, hasking.symbol, Option.map_some]

theorem exists_enclosing_option {number : Nat} (hlegal : document.Legal) (h : ofDocument document = .ok table)
    (hvisit : (number :: place, node) ∈ document.visits) (hnode : node.option? = some option)
    (hnames : table.Names id (number :: place, node)) (hmembers : table.members? id = some scope) :
    ∃ q owner members, (place, .question q) ∈ document.visits ∧ table.Names owner (place, .question q) ∧
      table.members? owner = some members ∧ table.enclosing? scope = some members := by
  obtain ⟨owner, index, q, name, other, symbol, hplace, hasking, hsymbol, hfor, hscope⟩ :=
    exists_listed_option hlegal hvisit hnode
  obtain rfl : place = [index] := hplace
  obtain rfl := eq_of_names h hnames ⟨_, getElem?_of_listed h hsymbol, hfor⟩
  obtain ⟨hlt, rfl⟩ := (members?_eq_some_iff h).mp hmembers
  refine ⟨q, owner, owner + 1, component_mem_visits hasking.component, ?_, ?_, ?_⟩
  · exact ⟨_, getElem?_of_listed h hasking.symbol, hasking.isFor⟩
  · exact (members?_eq_some_iff h).mpr ⟨(List.getElem?_eq_some_iff.mp hasking.symbol).1, rfl⟩
  · rw [(owner?_members h hlt).2, hsymbol, Option.map_some, hscope]

theorem owner_ownedIn (h : ofDocument document = .ok table) (howner : table.owner? scope = some owner) :
    owner = .survey ∨ (∃ visit ∈ document.visits, opened? visit = some owner) ∨
      ∃ id, ∃ visit ∈ document.visits, owner = .members id ∧ visit.2.isManaged = true ∧ table.Names id visit := by
  obtain ⟨-, rfl⟩ | ⟨id, hlt, -, rfl⟩ | ⟨-, hvisit⟩ := owner?_cases h howner
  · exact .inl rfl
  · obtain ⟨visit, hvisit, hmanaged, hfor⟩ := exists_managed_of_listed (List.getElem?_eq_getElem hlt)
    exact .inr (.inr ⟨id, visit, hvisit, rfl, hmanaged, _, getElem?_of_listed h (List.getElem?_eq_getElem hlt), hfor⟩)
  · exact .inr (.inl hvisit)

theorem existsUnique_members (h : ofDocument document = .ok table) (hvisit : visit ∈ document.visits)
    (hmanaged : visit.2.isManaged = true) (hnames : table.Names id visit) :
    ∃! scope, table.owner? scope = some (.members id) := by
  obtain ⟨symbol, hsymbol, hfor⟩ := hnames
  obtain ⟨found, hfound, -, hsame, hiff⟩ := exists_visit_of_symbol h hsymbol
  obtain ⟨place, node⟩ := visit
  obtain ⟨place', other⟩ := found
  obtain rfl : place = place' := hfor.1.symm.trans hsame.1
  obtain rfl := eq_of_mem_visits hvisit hfound
  have hlt := hiff.mp hmanaged
  refine ⟨id + 1, (owner?_members h hlt).1, fun scope hscope => ?_⟩
  exact ((members?_eq_some_iff h).mp ((owner?_members_iff h).mp hscope)).2

/-- In the table of a document that keeps the rules there is one scope of the survey, one of each interlude and block
and one of the members of each question, row and column; there is one symbol of each question, row and column and of
each rule, action, condition set and declaration; and there is nothing else. The scope of members is the one that its
symbol records, and no other symbol does. The members of questions and the interludes lie in the survey, the members of
options in those of their question, and blocks in what most closely contains them. A scope knows symbols of its own by
their names. -/
theorem ownedIn_of_analyze (h : document.analyze = .ok table) : document.OwnedIn table := by
  obtain ⟨hlegal, hbuilt⟩ := of_analyze h
  obtain ⟨⟨log, hlog⟩, -⟩ := symbols_of_ofDocument hbuilt
  exact {
    survey := fun scope => owner?_survey_iff hbuilt
    sites := fun visit hvisit owner => existsUnique_opened hbuilt hvisit
    owners := fun scope owner => owner_ownedIn hbuilt
    symbols := fun visit hvisit hnaming => by
      obtain ⟨id, hid⟩ := exists_names hlegal hbuilt hvisit hnaming
      exact ⟨id, hid, fun other hother => eq_of_names hbuilt hother hid⟩
    named := fun id hlt => by
      obtain ⟨visit, hvisit, hnaming, hfor, -⟩ := exists_visit_of_symbol hbuilt (Array.getElem?_eq_getElem hlt)
      exact ⟨visit, hvisit, hnaming, _, Array.getElem?_eq_getElem hlt, hfor⟩
    housed := fun visit hvisit hmanaged id => existsUnique_members hbuilt hvisit hmanaged
    members := fun scope id => owner?_members_iff hbuilt
    recorded := fun scope id other hid hother => by
      obtain ⟨-, hscope⟩ := (members?_eq_some_iff hbuilt).mp hid
      obtain ⟨-, hscope'⟩ := (members?_eq_some_iff hbuilt).mp hother
      exact Nat.succ.inj (hscope.symm.trans hscope')
    questions := fun place q id scope => enclosing?_question hlegal hbuilt
    options := fun number place node id scope hvisit hnode => by
      obtain ⟨option, hoption⟩ := Option.isSome_iff_exists.mp hnode
      exact exists_enclosing_option hlegal hbuilt hvisit hoption
    interludes := fun scope place position => enclosing?_interlude hbuilt
    blocks := fun scope place position => exists_innermost hbuilt
    known := fun scope name id hknown => by
      obtain ⟨symbol, hsymbol, hscope, hname⟩ := hlog.exists_symbol hknown
      exact ⟨symbol, hsymbol, hname, hscope⟩ }

/-- A question with a row, and an action with a name that is declared in its block. -/
theorem ownedIn_of_analyze_block :
    ∃ document table, compile .standard "<<q @single_choice>>Q[r]A<% action a { def x } %>" = .ok document ∧
      document.analyze = .ok table ∧ table.scopes.size = 5 ∧ table.symbols.size = 4 ∧ document.OwnedIn table := by
  have hsizes : ((compile .standard "<<q @single_choice>>Q[r]A<% action a { def x } %>").toOption.any fun document =>
      document.analyze.toOption.any fun table => table.scopes.size = 5 ∧ table.symbols.size = 4) = true := by
    decide +kernel
  cases hcompile : compile .standard "<<q @single_choice>>Q[r]A<% action a { def x } %>" with
  | error diagnostic =>
      rw [hcompile] at hsizes
      cases hsizes
  | ok document =>
      obtain ⟨table, htable⟩ := exists_analyze hcompile
      have hcounts : decide (table.scopes.size = 5 ∧ table.symbols.size = 4) = true := by
        rw [hcompile] at hsizes
        change (document.analyze.toOption.any _) = true at hsizes
        rw [htable] at hsizes
        exact hsizes
      obtain ⟨hscopes, hsymbols⟩ := of_decide_eq_true hcounts
      exact ⟨document, table, rfl, htable, hscopes, hsymbols, ownedIn_of_analyze htable⟩

end Document

end Owned

end Questionnaire
