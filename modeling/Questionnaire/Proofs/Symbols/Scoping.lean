import Questionnaire.Proofs.Symbols.Settling
import Questionnaire.Proofs.Walk.Places

/-! Lexical scoping. The survey knows its last questions, and every site of the document, an interlude or a block, has
one scope, within that of the site that directly contains it. A name is looked up on the way from the scope of a site
to the survey, thus it is found as what it means at that site, and at no site that the way does not pass. -/

namespace Questionnaire

namespace Table

variable {table : Table} {scope other : ScopeId}

def owners (table : Table) : List ScopeOwner := table.scopes.toList.map Scope.owner

theorem getElem?_owners (table : Table) (scope : ScopeId) : table.owners[scope]? = table.owner? scope := by
  simp [owners, owner?]

theorem owners_define (table : Table) (symbol : Symbol) : (table.define symbol).2.owners = table.owners := by
  refine List.ext_getElem? fun scope => ?_
  rw [getElem?_owners, getElem?_owners]
  by_cases hlt : scope < table.scopes.size
  · exact (Grows.define table symbol).owner scope hlt
  · have hle := Nat.le_of_not_lt hlt
    rw [owner?, owner?, Array.getElem?_eq_none hle, Array.getElem?_eq_none (by rwa [size_scopes_define])]

/-- No two scopes belong to one place. -/
def Distinct (table : Table) : Prop :=
  table.owners.Pairwise fun left right => left.site? = none ∨ left.site? ≠ right.site?

theorem Distinct.eq {site : Place} (h : table.Distinct)
    (hscope : (table.owner? scope).bind ScopeOwner.site? = some site)
    (hother : (table.owner? other).bind ScopeOwner.site? = some site) : scope = other := by
  rw [← getElem?_owners] at hscope hother
  obtain ⟨first, hfirst, hscope⟩ := Option.bind_eq_some_iff.mp hscope
  obtain ⟨second, hsecond, hother⟩ := Option.bind_eq_some_iff.mp hother
  obtain ⟨hlt, hfirst⟩ := List.getElem?_eq_some_iff.mp hfirst
  obtain ⟨hlt', hsecond⟩ := List.getElem?_eq_some_iff.mp hsecond
  have hpairwise := List.pairwise_iff_getElem.mp h
  rcases Nat.lt_trichotomy scope other with hbefore | rfl | hafter
  · have hdiffer := hpairwise scope other hlt hlt' hbefore
    rw [hfirst, hsecond, hscope, hother] at hdiffer
    simp at hdiffer
  · rfl
  · have hdiffer := hpairwise other scope hlt' hlt hafter
    rw [hfirst, hsecond, hscope, hother] at hdiffer
    simp at hdiffer

/-- The scope of an interlude or a block, or that of the survey, which has no place. -/
def scopeAt? (table : Table) : Place → Option ScopeId
  | [] => some survey
  | [index] => table.scopeOfInterlude? [index]
  | place => table.scopeOfBlock? place

theorem scopeOwnedBy?_eq_some {isOwner : ScopeOwner → Bool} {owner : ScopeOwner} (h : table.Distinct) (site : Place)
    (hsite : ∀ other, isOwner other = true → other.site? = some site) (howner : table.owner? scope = some owner)
    (hisOwner : isOwner owner = true) : table.scopeOwnedBy? isOwner = some scope := by
  have hlt := lt_size_of_owner? howner
  have hbound {other : ScopeId} (hother : other < table.scopes.size) :
      table.owner? other = some table.scopes[other].owner := by
    rw [owner?, Array.getElem?_eq_getElem hother, Option.map_some]
  have hscope : (table.owner? scope).bind ScopeOwner.site? = some site := by
    rw [howner]
    exact hsite owner hisOwner
  rw [scopeOwnedBy?, Array.findIdx?_eq_some_iff_getElem]
  refine ⟨hlt, ?_, fun other hbefore hfound => ?_⟩
  · obtain rfl := Option.some.inj ((hbound hlt).symm.trans howner)
    exact hisOwner
  · have hother : (table.owner? other).bind ScopeOwner.site? = some site := by
      rw [hbound (Nat.lt_trans hbefore hlt)]
      exact hsite _ hfound
    exact absurd (h.eq hother hscope) (Nat.ne_of_lt hbefore)

theorem Distinct.scopeAt?_interlude {index : Nat} {position : Position} (h : table.Distinct)
    (howner : table.owner? scope = some (.interlude [index] position)) : table.scopeAt? [index] = some scope := by
  rw [scopeAt?, scopeOfInterlude?]
  refine scopeOwnedBy?_eq_some h [index] (fun other hother => ?_) howner ?_
  · cases other with
    | interlude place position => exact congrArg some (beq_iff_eq.mp hother)
    | _ => cases hother
  · exact beq_self_eq_true [index]

theorem Distinct.scopeAt?_block {child index : Nat} {site : Place} {position : Position} (h : table.Distinct)
    (howner : table.owner? scope = some (.block (child :: index :: site) position)) :
    table.scopeAt? (child :: index :: site) = some scope := by
  show table.scopeOfBlock? (child :: index :: site) = some scope
  rw [scopeOfBlock?]
  refine scopeOwnedBy?_eq_some h (child :: index :: site) (fun other hother => ?_) howner ?_
  · cases other with
    | block place position => exact congrArg some (beq_iff_eq.mp hother)
    | _ => cases hother
  · exact beq_self_eq_true (child :: index :: site)

end Table

namespace Declaring

open Table

variable {table later : Table} {scope : ScopeId} {place : Place}

/-- The scope that is opened where the node is come to. -/
def opened? : Place × Node → Option ScopeOwner
  | (place, .interlude i) => some (.interlude place i.span.first.position)
  | (place, .block b) => some (.block place b.span.first.position)
  | _ => none

theorem enter_owners {node : Node} {inner : ScopeId} (h : enter scope place node table = .ok inner later) :
    later.owners = table.owners ++ (opened? (place, node)).toList := by
  cases node with
  | interlude i =>
      cases h
      simp [owners, opened?]
  | block b =>
      cases h
      simp [owners, opened?]
  | statement statement =>
      have hstep := (enter_statement_eq_ok h).2
      cases hdeclared : statement.declared? with
      | none =>
          rw [hdeclared] at hstep
          obtain rfl : later = table := hstep
          exact (List.append_nil _).symm
      | some declared =>
          obtain ⟨name, kind⟩ := declared
          rw [hdeclared] at hstep
          obtain rfl : later = _ := hstep
          rw [owners_define]
          exact (List.append_nil _).symm
  | expression expr =>
      obtain ⟨-, rfl⟩ := quiet_expression expr _ _ _ _ _ h
      exact (List.append_nil _).symm
  | _ =>
      cases h
      exact (List.append_nil _).symm

mutual

/-- Scopes are opened in the order of a walk. -/
theorem outline_owners {table later : Table} {scope : ScopeId} {place : Place} (tree : Outline)
    (h : outline scope place tree table = .ok () later) :
    later.owners = table.owners ++ (tree.visits place).filterMap opened? := by
  cases tree with
  | mk node children =>
      obtain ⟨inner, middle, henter, hwalk⟩ := outline_eq_ok.mp h
      rw [outlinesFrom_owners children hwalk, enter_owners henter, Outline.visits, List.append_assoc]
      cases hopened : opened? (place, node) with
      | none => rw [List.filterMap_cons_none hopened, Option.toList_none, List.nil_append]
      | some owner => rw [List.filterMap_cons_some hopened, Option.toList_some, List.singleton_append]

theorem outlinesFrom_owners {table later : Table} {scope : ScopeId} {place : Place} {index : Nat}
    (trees : List Outline) (h : outlinesFrom scope place index trees table = .ok () later) :
    later.owners = table.owners ++ (Outline.visitsFrom place index trees).filterMap opened? := by
  cases trees with
  | nil =>
      cases h
      exact (List.append_nil _).symm
  | cons first others =>
      obtain ⟨middle, hfirst, hothers⟩ := outlinesFrom_cons_eq_ok.mp h
      rw [outlinesFrom_owners others hothers, outline_owners first hfirst, Outline.visitsFrom, List.filterMap_append,
        List.append_assoc]

end

theorem opened?_site {visit : Place × Node} {owner : ScopeOwner} (h : opened? visit = some owner) :
    owner.site? = some visit.1 := by
  obtain ⟨place, node⟩ := visit
  cases node <;> cases h <;> rfl

/-- A walk comes to no place twice, and thus opens no two scopes for one. -/
theorem distinct_of_outlinesFrom {index : Nat} {trees : List Outline}
    (hnone : ∀ owner ∈ table.owners, owner.site? = none)
    (h : outlinesFrom scope place index trees table = .ok () later) : later.Distinct := by
  rw [Distinct, outlinesFrom_owners trees h, List.pairwise_append]
  refine ⟨?_, ?_, fun owner howner _ _ => .inl (hnone owner howner)⟩
  · exact List.pairwise_of_forall_mem_list fun owner howner _ _ => .inl (hnone owner howner)
  · refine List.pairwise_filterMap.mpr ((Outline.visitsFrom_pairwise trees place index).imp ?_)
    intro left right hne first hfirst second hsecond
    rw [opened?_site hfirst, opened?_site hsecond]
    exact .inr fun hsame => hne (Option.some.inj hsame)

end Declaring

namespace Table

variable {table later : Table} {document : Document}

/-- What the survey knows the name as is its last question. -/
def Asks (table : Table) (name : String) : Option (Nat × Question) → Prop
  | some (index, q) => ∃ id members, table.known? survey name = some id ∧
      table.symbols[id]? = some ⟨name, .question members, [index], survey, q.span.first.position⟩
  | none => table.known? survey name = none

theorem Asks.of_known {name : String} {asked : Option (Nat × Question)} (h : table.Asks name asked)
    (hknown : later.known? survey name = table.known? survey name)
    (hsymbols : ∀ {id : SymbolId} {symbol : Symbol}, table.symbols[id]? = some symbol →
      later.symbols[id]? = some symbol) : later.Asks name asked := by
  cases asked with
  | none => exact hknown.trans h
  | some found =>
      obtain ⟨id, members, hid, hsymbol⟩ := h
      exact ⟨id, members, hknown.trans hid, hsymbols hsymbol⟩

/-- The questions among the components have been defined in the survey. -/
structure Asked (table : Table) (components : List Component) : Prop where
  owner : table.owner? survey = some .survey
  enclosing : table.enclosing? survey = none
  asks : ∀ name, table.Asks name (lastSome? (Component.question? name) components)

theorem asked_empty : empty.Asked [] := ⟨rfl, rfl, fun _ => rfl⟩

theorem Agrees.survey_eq (h : table.Agrees later) (howner : table.owner? survey = some .survey) :
    later.scopes[survey]? = table.scopes[survey]? := by
  obtain ⟨found, hfound, hsurvey⟩ := Option.map_eq_some_iff.mp howner
  have hlexical : found.owner.isLexical = true := by rw [hsurvey]; rfl
  rw [hfound]
  exact (h.scopes hlexical).mpr hfound

theorem Asked.of_agrees {components : List Component} (h : table.Asked components) (hagrees : table.Agrees later) :
    later.Asked components := by
  have hsame := hagrees.survey_eq h.owner
  refine ⟨(congrArg _ hsame).trans h.owner, ?_, fun name => ?_⟩
  · rw [enclosing?, hsame]
    exact h.enclosing
  · have hknown : later.known? survey name = table.known? survey name := by rw [known?, hsame, known?]
    exact (h.asks name).of_known hknown hagrees.symbols

theorem Asked.defineManaged {components : List Component} {q : Question} {known : String} (h : table.Asked components)
    (hname : q.name? = some known) :
    (table.defineManaged .question known [components.length] survey q.span.first.position).2.Asked
      (components ++ [.question q]) := by
  have hlt := lt_size_of_owner? h.owner
  have hadd := Grows.addScope table (.members table.symbols.size) survey
  have hlt' := Nat.lt_of_lt_of_le hlt hadd.size
  let symbol : Symbol :=
    ⟨known, .question table.scopes.size, [components.length], survey, q.span.first.position⟩
  have hdefine := Grows.define (table.addScope (.members table.symbols.size) survey).2 symbol
  have hgrows := (hadd.of_none (some survey)).trans hdefine
  refine ⟨(hgrows.owner survey hlt).trans h.owner, (hgrows.enclosing survey hlt).trans h.enclosing, fun name => ?_⟩
  have hknown := Grows.known?_define (table.addScope (.members table.symbols.size) survey).2 symbol hlt' name
  rw [lastSome?_concat]
  by_cases hsame : known = name
  · have hsome : Component.question? name (.question q) = some q := if_pos (hname.trans (congrArg some hsame))
    rw [if_pos ⟨rfl, hsame.symm⟩] at hknown
    rw [hsome]
    refine ⟨_, table.scopes.size, hknown, ?_⟩
    subst hsame
    exact Array.getElem?_push_size
  · have hother : Component.question? name (.question q) = none :=
      if_neg fun heq => hsame (Option.some.inj (hname.symm.trans heq))
    rw [if_neg fun heq => hsame heq.2.symm, hadd.known survey hlt nofun] at hknown
    rw [hother]
    exact (h.asks name).of_known hknown hgrows.symbols

theorem asked_defineQuestion {components : List Component} (h : table.Asked components) (component : Component) :
    (table.defineQuestion (.ofComponent component, components.length)).Asked (components ++ [component]) := by
  have hnone : (∀ name, component.question? name = none) → table.Asked (components ++ [component]) := by
    intro hname
    refine ⟨h.owner, h.enclosing, fun name => ?_⟩
    rw [lastSome?_concat, hname]
    exact h.asks name
  cases component with
  | heading heading => exact hnone fun _ => rfl
  | interlude interlude => exact hnone fun _ => rfl
  | question q =>
      cases hname : q.name? with
      | none =>
          simp only [defineQuestion, Outline.ofComponent, Outline.node, hname]
          exact hnone fun name => by rw [Component.question?, hname]; rfl
      | some known =>
          simp only [defineQuestion, Outline.ofComponent, Outline.node, hname]
          refine Asked.of_agrees ?_ (agrees_foldl_defineOption (not_lexical_defineManaged _ _ _ _ _) _)
          exact h.defineManaged hname

theorem asked_foldl_defineQuestion {before : List Component} (h : table.Asked before) (components : List Component) :
    (((components.map Outline.ofComponent).zipIdx before.length).foldl defineQuestion table).Asked
      (before ++ components) := by
  induction components generalizing table before with
  | nil => rwa [List.append_nil]
  | cons component components ih =>
      have hrest := ih (asked_defineQuestion h component)
      rw [List.length_append, List.append_assoc] at hrest
      exact hrest

theorem asked_ofQuestions (document : Document) : (ofQuestions document).Asked document.components :=
  asked_foldl_defineQuestion asked_empty document.components

theorem site?_ofQuestions (document : Document) : ∀ owner ∈ (ofQuestions document).owners, owner.site? = none := by
  intro owner howner
  obtain ⟨scope, howner⟩ := List.mem_iff_getElem?.mp howner
  rw [getElem?_owners] at howner
  cases hlexical : owner.isLexical with
  | false =>
      cases owner with
      | members symbol => rfl
      | _ => cases hlexical
  | true =>
      obtain ⟨found, hfound, rfl⟩ := Option.map_eq_some_iff.mp howner
      obtain rfl := (surveys_ofQuestions document).only scope ⟨found, hfound, hlexical⟩
      rw [(asked_ofQuestions document).owner] at howner
      rw [← Option.some.inj howner]
      rfl

/-- How a document comes into its table. -/
structure Built (document : Document) (table : Table) : Prop where
  surveyed : Declaring.Surveyed document 0 (ofQuestions document) table
  distinct : table.Distinct
  guards : table.Guards document.questionNames

theorem built_of_ofDocument (h : ofDocument document = .ok table) : Built document table := by
  have hsurveys := surveys_ofQuestions document
  have hobeys := Declaring.outlinesFrom_obeys hsurveys.guards hsurveys.guards.lexical_survey [] 0 document.outlines
  rw [ofDocument_eq] at h
  split at h
  next later hrun =>
    cases h
    rw [hrun] at hobeys
    exact {
      surveyed := Declaring.components_surveyed (List.nil_append _).symm hrun
      distinct := Declaring.distinct_of_outlinesFrom (site?_ofQuestions document) hrun
      guards := hobeys.2.1 }
  next => cases h

/-- The scope of a site, and the one that directly contains it. -/
structure At (document : Document) (table : Table) (site : Place) (statements : List Statement)
    (scope outer : ScopeId) : Prop where
  scopeAt : table.scopeAt? site = some scope
  outerAt : table.scopeAt? (site.drop 2) = some outer
  settled : table.Settled site statements scope
  enclosing : table.enclosing? scope = some outer
  within : outer < scope
  around : site.drop 2 = [] ∨ ∃ others, document.statementsAt? (site.drop 2) = some others
  new : (ofQuestions document).scopes.size ≤ scope

namespace Built

variable {statements : List Statement} {scope : ScopeId} {name : String}

theorem settled (h : Built document table) {owner : ScopeOwner} {site : Place}
    (hsite : document.statementsAt? site = some statements) (hnew : (ofQuestions document).scopes.size ≤ scope)
    (howner : table.owner? scope = some owner) (hplace : owner.site? = some site) :
    table.Settled site statements scope := by
  obtain ⟨place, others, hothers, hsettled⟩ := h.surveyed.completes scope hnew (lt_size_of_owner? howner)
  have hsame := hsettled.owner
  rw [howner, Option.bind_some, hplace] at hsame
  obtain rfl := Option.some.inj hsame
  obtain rfl := Option.some.inj (hothers.symm.trans hsite)
  exact hsettled

/-- There is a scope for every interlude and every block, within that of what contains it. -/
theorem exists_at (h : Built document table) : ∀ {site : Place} {statements : List Statement},
    document.statementsAt? site = some statements → ∃ scope outer, At document table site statements scope outer
  | [], _, hsite => by cases hsite
  | [index], statements, hsite => by
      have hinterlude := hsite
      unfold Document.statementsAt? at hinterlude
      split at hinterlude
      next i hi =>
        obtain ⟨inner, hnew, howner, henclosing⟩ := h.surveyed.interludes index i (Nat.zero_le _) hi
        have hsurvey := lt_size_of_owner? (asked_ofQuestions document).owner
        exact ⟨inner, survey, h.distinct.scopeAt?_interlude howner, rfl, h.settled hsite hnew howner rfl, henclosing,
          Nat.lt_of_lt_of_le hsurvey hnew, .inl rfl, hnew⟩
      next => cases hinterlude
  | child :: index :: site, statements, hsite => by
      have hblock := hsite
      unfold Document.statementsAt? at hblock
      obtain ⟨others, hothers, hblock⟩ := Option.bind_eq_some_iff.mp hblock
      obtain ⟨statement, hstatement, hblock⟩ := Option.bind_eq_some_iff.mp hblock
      obtain ⟨⟨position, block⟩, hposition, hblock⟩ := Option.bind_eq_some_iff.mp hblock
      dsimp only at hblock
      split at hblock
      next hchild =>
        subst hchild
        obtain ⟨scope, outer, hat⟩ := h.exists_at hothers
        obtain ⟨inner, howner, henclosing, hlt⟩ := hat.settled.blocks index position block
          (Option.bind_eq_some_iff.mpr ⟨statement, hstatement, hposition⟩)
        have hnew := Nat.le_trans hat.new (Nat.le_of_lt hlt)
        exact ⟨inner, scope, h.distinct.scopeAt?_block howner, hat.scopeAt, h.settled hsite hnew howner rfl, henclosing,
          hlt, .inr ⟨others, hothers⟩, hnew⟩
      next => cases hblock

end Built

/-- The table gives the name just the meaning, by a symbol of it. -/
def Denotes (table : Table) (name : String) (found : Option SymbolId) : Option Meaning → Prop
  | some (.declared site index token kind) => ∃ id scope, found = some id ∧ table.scopeAt? site = some scope ∧
      table.symbols[id]? = some ⟨name, kind, index :: site, scope, token.position⟩
  | some (.question index q) => ∃ id members, found = some id ∧
      table.symbols[id]? = some ⟨name, .question members, [index], survey, q.span.first.position⟩
  | none => found = none

namespace At

variable {site : Place} {statements : List Statement} {scope outer : ScopeId} {name : String}

theorem declaredAt?_eq (hsite : document.statementsAt? site = some statements) (name : String) :
    document.declaredAt? name site = (lastSome? (Statement.declares? name) statements).map fun found =>
      .declared site found.1 found.2.1 found.2.2 := by
  rw [Document.declaredAt?, hsite, Option.bind_some]

/-- The step: what is declared in the site itself comes first, and everything else is looked up around it. -/
theorem resolve_cases (h : At document table site statements scope outer)
    (hsite : document.statementsAt? site = some statements) (name : String) :
    (document.declaredAt? name site = none ∧ table.resolve scope name = table.resolve outer name) ∨
      ∃ index token kind, document.declaredAt? name site = some (.declared site index token kind) ∧
        table.Denotes name (table.resolve scope name) (some (.declared site index token kind)) := by
  have hdeclares := h.settled.known name
  rw [declaredAt?_eq hsite]
  cases hlast : lastSome? (Statement.declares? name) statements with
  | none =>
      rw [hlast] at hdeclares
      exact .inl ⟨rfl, resolve_eq_outer hdeclares h.enclosing h.within⟩
  | some found =>
      obtain ⟨index, token, kind⟩ := found
      rw [hlast] at hdeclares
      obtain ⟨id, hknown, hsymbol⟩ := hdeclares
      exact .inr ⟨index, token, kind, rfl, id, scope, resolve_eq_of_known hknown, h.scopeAt, hsymbol⟩

end At

namespace Built

/-- What holds in the survey and is passed on to sites from what directly contains them holds in all of them. -/
theorem site_induction (h : Built document table) {motive : Place → ScopeId → Prop} (root : motive [] survey)
    (step : ∀ {site statements scope outer}, document.statementsAt? site = some statements →
      At document table site statements scope outer → motive (site.drop 2) outer → motive site scope)
    {site : Place} {statements : List Statement} {scope : ScopeId}
    (hsite : document.statementsAt? site = some statements) (hscope : table.scopeAt? site = some scope) :
    motive site scope := by
  induction hlength : site.length using Nat.strong_induction_on generalizing site statements scope with
  | _ length ih =>
      subst hlength
      obtain ⟨found, outer, hat⟩ := h.exists_at hsite
      obtain rfl := Option.some.inj (hat.scopeAt.symm.trans hscope)
      refine step hsite hat ?_
      rcases hat.around with hnil | ⟨others, hothers⟩
      · have houter := hat.outerAt
        rw [hnil] at houter ⊢
        cases houter
        exact root
      · -- a block stands at two indices more than the site that contains it
        refine ih _ ?_ hothers hat.outerAt rfl
        cases site with
        | nil => cases hsite
        | cons => simp [Nat.lt_succ_of_le (Nat.sub_le _ _)]

variable (h : Built document table)
include h

theorem asks_survey (name : String) : table.Asks name (lastSome? (Component.question? name) document.components) := by
  have hasked := asked_ofQuestions document
  have hlt := lt_size_of_owner? hasked.owner
  exact (hasked.asks name).of_known (h.surveyed.grows.known survey hlt nofun name) h.surveyed.grows.symbols

theorem resolve_survey_of_none {name : String} (hnone : table.known? survey name = none) :
    table.resolve survey name = none := by
  have hasked := asked_ofQuestions document
  have hlt := lt_size_of_owner? hasked.owner
  have howner := (h.surveyed.grows.owner survey hlt).trans hasked.owner
  have hroot := (h.surveyed.grows.enclosing survey hlt).trans hasked.enclosing
  obtain ⟨found, hfound, -⟩ := Option.map_eq_some_iff.mp howner
  rw [known?, hfound] at hnone
  rw [enclosing?, hfound] at hroot
  exact resolve_of_root hfound hnone hroot

theorem denotes_survey (name : String) :
    table.Denotes name (table.resolve survey name) (document.meaning? name []) := by
  have hasks := h.asks_survey name
  rw [Document.meaning?]
  cases hlast : lastSome? (Component.question? name) document.components with
  | none =>
      rw [hlast] at hasks
      exact h.resolve_survey_of_none hasks
  | some found =>
      obtain ⟨index, q⟩ := found
      rw [hlast] at hasks
      obtain ⟨id, members, hknown, hsymbol⟩ := hasks
      exact ⟨id, members, resolve_eq_of_known hknown, hsymbol⟩

variable {site : Place} {statements : List Statement} {scope : ScopeId}

theorem denotes (hsite : document.statementsAt? site = some statements) (hscope : table.scopeAt? site = some scope)
    (name : String) : table.Denotes name (table.resolve scope name) (document.meaning? name site) := by
  refine h.site_induction (motive := fun site scope =>
    table.Denotes name (table.resolve scope name) (document.meaning? name site)) (h.denotes_survey name) ?_ hsite hscope
  intro site statements scope outer hsite hat hcontaining
  have hne : site ≠ [] := by
    rintro rfl
    cases hsite
  rw [Document.meaning?_eq hne]
  rcases hat.resolve_cases hsite name with ⟨hnone, hsame⟩ | ⟨index, token, kind, hdeclared, hdenotes⟩
  · rw [hnone, Option.none_or, hsame]
    exact hcontaining
  · rw [hdeclared, Option.some_or]
    exact hdenotes

theorem isManaged_of_survey {name : String} {id : SymbolId} {symbol : Symbol}
    (hresolve : table.resolve survey name = some id) (hsymbol : table.symbols[id]? = some symbol) :
    symbol.kind.isManaged = true := by
  have hdenotes := h.denotes_survey name
  rw [hresolve, Document.meaning?] at hdenotes
  cases hlast : lastSome? (Component.question? name) document.components with
  | none =>
      rw [hlast] at hdenotes
      cases hdenotes
  | some found =>
      rw [hlast] at hdenotes
      obtain ⟨known, members, hknown, hquestion⟩ := hdenotes
      cases hknown
      rw [hquestion] at hsymbol
      cases hsymbol
      rfl

/-- A name of the survey is declared at no site, so that it is looked up to the survey from all of them. -/
theorem resolve_question (hsite : document.statementsAt? site = some statements)
    (hscope : table.scopeAt? site = some scope) {name : String} (hname : name ∈ document.questionNames) :
    table.resolve scope name = table.resolve survey name := by
  refine h.site_induction (motive := fun _ scope => table.resolve scope name = table.resolve survey name) rfl ?_ hsite
    hscope
  intro site statements scope outer hsite hat hcontaining
  rcases hat.resolve_cases hsite name with ⟨-, hsame⟩ | ⟨index, token, kind, hdeclared, id, found, hid, -, hsymbol⟩
  · exact hsame.trans hcontaining
  · have hmanaged := (h.guards.isManaged_iff hat.settled.lexical).mpr hname
    rw [isManaged, hid] at hmanaged
    dsimp only at hmanaged
    rw [members?, hsymbol] at hmanaged
    exact absurd hmanaged (Bool.eq_false_iff.mp (Document.isManaged_of_declaredAt? hdeclared))

/-- What is declared is found at its site and within it alone. -/
theorem exists_declaring (hsite : document.statementsAt? site = some statements)
    (hscope : table.scopeAt? site = some scope) {name : String} {id : SymbolId} {symbol : Symbol}
    (hresolve : table.resolve scope name = some id) (hsymbol : table.symbols[id]? = some symbol)
    (hkind : symbol.kind.isManaged = false) : ∃ declaring index token kind,
      document.declaredAt? name declaring = some (.declared declaring index token kind) ∧
        symbol.node = index :: declaring ∧ declaring <:+ site := by
  revert hresolve
  refine h.site_induction (motive := fun site scope =>
    table.resolve scope name = some id → ∃ declaring index token kind,
    document.declaredAt? name declaring = some (.declared declaring index token kind) ∧
      symbol.node = index :: declaring ∧ declaring <:+ site) ?_ ?_ hsite hscope
  · intro hresolve
    rw [h.isManaged_of_survey hresolve hsymbol] at hkind
    cases hkind
  · intro site statements scope outer hsite hat hcontaining hresolve
    rcases hat.resolve_cases hsite name with ⟨-, hsame⟩ | ⟨index, token, kind, hdeclared, known, _, hknown, -, hfound⟩
    · obtain ⟨declaring, index, token, kind, hdeclared, hnode, hsuffix⟩ := hcontaining (hsame ▸ hresolve)
      exact ⟨declaring, index, token, kind, hdeclared, hnode, hsuffix.trans (List.drop_suffix 2 site)⟩
    · cases hknown.symm.trans hresolve
      cases hsymbol.symm.trans hfound
      exact ⟨site, index, token, kind, hdeclared, rfl, List.suffix_refl site⟩

end Built

/-- The table gives every name, in every interlude and block, the meaning it has in the document: that of its last
declaration made directly there, or else what it means in the scope that directly contains this one. Questions mean
the same everywhere, and what is declared is not found outside of where it is. -/
theorem resolve_lexical (h : ofDocument document = .ok table) {site : Place} {node : Node}
    {statements : List Statement} (hvisit : (site, node) ∈ document.visits)
    (hnode : node.statements? = some statements) :
    ∃ scope outer, document.statementsAt? site = some statements ∧ table.scopeAt? site = some scope ∧
      table.scopeAt? (site.drop 2) = some outer ∧ ∀ name,
        table.Denotes name (table.resolve scope name) (document.meaning? name site) ∧
        (document.declaredAt? name site = none → table.resolve scope name = table.resolve outer name) ∧
        (name ∈ document.questionNames → table.resolve scope name = table.resolve survey name) ∧
        ∀ id symbol, table.resolve scope name = some id → table.symbols[id]? = some symbol →
          symbol.kind.isManaged = false → ∃ declaring index token kind,
            document.declaredAt? name declaring = some (.declared declaring index token kind) ∧
              symbol.node = index :: declaring ∧ declaring <:+ site := by
  have hsite := Document.statementsAt?_of_mem_visits hvisit hnode
  have hbuilt := built_of_ofDocument h
  obtain ⟨scope, outer, hat⟩ := hbuilt.exists_at hsite
  refine ⟨scope, outer, hsite, hat.scopeAt, hat.outerAt, fun name => ⟨?_, fun hnone => ?_, fun hname => ?_, ?_⟩⟩
  · exact hbuilt.denotes hsite hat.scopeAt name
  · rcases hat.resolve_cases hsite name with ⟨-, hsame⟩ | ⟨index, token, kind, hdeclared, -⟩
    · exact hsame
    · rw [hnone] at hdeclared
      cases hdeclared
  · exact hbuilt.resolve_question hsite hat.scopeAt hname
  · intro id symbol hresolve hsymbol hkind
    exact hbuilt.exists_declaring hsite hat.scopeAt hresolve hsymbol hkind

/-- A block that declares one name of its interlude again, after a question that is never declared. -/
theorem resolve_lexical_block :
    let token (text : String) (line : Nat) : Token := ⟨.identifier, text, ⟨line, 1⟩⟩
    let span (line : Nat) : Span := .single (token "" line)
    let block : Block := ⟨[.declaration (token "x" 5) none (span 5)], span 4⟩
    let document : Document :=
      ⟨[.question ⟨[], [⟨"q", none, true, span 1⟩], [], [], span 1⟩,
        .interlude ⟨[.declaration (token "x" 2) none (span 2), .declaration (token "y" 3) none (span 3),
          .action (token "a" 4) block (span 4)], span 2⟩]⟩
    let table : Table :=
      ⟨#[⟨.survey, none, [("q", 0)]⟩, ⟨.members 0, some 0, []⟩,
          ⟨.interlude [1] ⟨2, 1⟩, some 0, [("a", 3), ("y", 2), ("x", 1)]⟩,
          ⟨.block [0, 2, 1] ⟨4, 1⟩, some 2, [("x", 4)]⟩],
        #[⟨"q", .question 1, [0], 0, ⟨1, 1⟩⟩, ⟨"x", .declaration, [0, 1], 2, ⟨2, 1⟩⟩,
          ⟨"y", .declaration, [1, 1], 2, ⟨3, 1⟩⟩, ⟨"a", .action, [2, 1], 2, ⟨4, 1⟩⟩,
          ⟨"x", .declaration, [0, 0, 2, 1], 3, ⟨5, 1⟩⟩]⟩
    Table.ofDocument document = .ok table ∧ ([0, 2, 1], .block block) ∈ document.visits ∧
      (Node.block block).statements? = some block.statements ∧
      table.Denotes "x" (table.resolve 3 "x") (some (.declared [0, 2, 1] 0 (token "x" 5) .declaration)) ∧
      table.resolve 3 "y" = table.resolve 2 "y" ∧ table.resolve 3 "q" = table.resolve survey "q" := by
  intro token span block document table
  have hbuilt : Table.ofDocument document = .ok table := by decide +kernel
  have hvisit : ([0, 2, 1], .block block) ∈ document.visits := List.mem_of_getElem? (i := 6) rfl
  obtain ⟨scope, outer, -, hscope, houter, hnames⟩ := resolve_lexical hbuilt hvisit rfl
  have hblock : table.scopeAt? [0, 2, 1] = some 3 := by decide +kernel
  have hinterlude : table.scopeAt? [1] = some 2 := by decide +kernel
  obtain rfl := Option.some.inj (hblock.symm.trans hscope)
  obtain rfl := Option.some.inj (hinterlude.symm.trans houter)
  exact ⟨hbuilt, hvisit, rfl, (hnames "x").1, (hnames "y").2.1 rfl, (hnames "q").2.2.1 (by decide)⟩

end Table

end Questionnaire
