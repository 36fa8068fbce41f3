import Questionnaire.Proofs.Symbols.Guarding
import Questionnaire.Proofs.Symbols.Stack
import Questionnaire.Proofs.Symbols.Writes

/-! The names of the survey are read-only. The questions give the survey its names before anything is declared, and
no step of the walk over the document takes one away or covers it, so that what is refused in some scope is just
what would be refused in any. -/

namespace Questionnaire

def Component.questionName? : Component → Option String
  | .question q => q.name?
  | .heading _ => none
  | .interlude _ => none

/-- The names of all questions of a document that have one. -/
def Document.questionNames (document : Document) : List String :=
  document.components.filterMap Component.questionName?

/-- The first write of one of the names. -/
def Write.refused? (names : List String) (writes : List Write) : Option Write :=
  writes.find? fun write => write.name.text ∈ names

namespace Write

variable {names : List String} {first second : List Write} {write : Write}

theorem refused?_append_of_some (h : refused? names first = some write) :
    refused? names (first ++ second) = some write := by
  rw [refused?, List.find?_append, ← refused?, h, Option.some_or]

theorem refused?_append_of_none (h : refused? names first = none) :
    refused? names (first ++ second) = refused? names second := by
  rw [refused?, List.find?_append, ← refused?, h, Option.none_or, refused?]

theorem refused?_eq_none_iff : refused? names first = none ↔ ∀ write ∈ first, write.name.text ∉ names := by
  simp [refused?]

theorem refused?_eq_some_iff : refused? names first = some write ↔
    ∃ earlier later, first = earlier ++ write :: later ∧ (∀ other ∈ earlier, other.name.text ∉ names) ∧
      write.name.text ∈ names := by
  rw [refused?, List.find?_eq_some_iff_append]
  simp only [decide_eq_true_eq, Bool.not_eq_true', decide_eq_false_iff_not]
  constructor
  · rintro ⟨hmem, earlier, later, heq, hearlier⟩
    exact ⟨earlier, later, heq, hearlier, hmem⟩
  · rintro ⟨earlier, later, heq, hearlier, hmem⟩
    exact ⟨hmem, earlier, later, heq, hearlier⟩

end Write

theorem Statement.isManaged_of_declared? {statement : Statement} {name : Token} {kind : SymbolKind}
    (h : statement.declared? = some (name, kind)) : kind.isManaged = false := by
  cases statement <;> cases h <;> rfl

namespace Declaring

variable {table later : Table} {scope inner : ScopeId} {place : Place} {node : Node} {write : Write}
  {names : List String}

/-- What becomes of the table, and of the scope, where a node is come to in a scope: a scope is opened within it, a
name that was free is declared in it, or nothing changes. -/
inductive Entered (table : Table) (scope : ScopeId) : ScopeId → Table → Prop where
  | opened {owner : ScopeOwner} (howner : owner.isLexical = true) :
      Entered table scope table.scopes.size (table.addScope owner scope).2
  | declared {symbol : Symbol} (hscope : symbol.scope = scope) (hkind : symbol.kind.isManaged = false)
      (hfree : table.isManaged scope symbol.name = false) : Entered table scope scope (table.define symbol).2
  | passed : Entered table scope scope table

theorem enter_of_isManaged (hwrite : node.write? = some write)
    (hmanaged : table.isManaged scope write.name.text = true) :
    enter scope place node table = .error write.diagnostic table := by
  cases node with
  | statement s =>
      obtain ⟨⟨name, kind⟩, hdeclared, rfl⟩ := Option.map_eq_some_iff.mp hwrite
      have hdeclare : declare scope place name kind table = .error (Write.declaration name).diagnostic table :=
        if_pos hmanaged
      rw [enter_statement_of_some hdeclared, run_bind, hdeclare]
  | expression e =>
      cases e with
      | assign target value span =>
          obtain rfl := Option.some.inj hwrite
          have hassign : assign scope target table = .error (Write.assignment target).diagnostic table :=
            if_pos hmanaged
          rw [enter_assign, run_bind, hassign]
      | _ => cases hwrite
  | _ => cases hwrite

theorem exists_entered (hfree : ∀ write, node.write? = some write → table.isManaged scope write.name.text = false) :
    ∃ inner later, enter scope place node table = .ok inner later ∧ Entered table scope inner later := by
  cases node with
  | interlude i => exact ⟨_, _, rfl, .opened rfl⟩
  | block b => exact ⟨_, _, rfl, .opened rfl⟩
  | statement s =>
      cases hdeclared : s.declared? with
      | none => exact ⟨scope, table, by rw [enter_statement_of_none hdeclared]; rfl, .passed⟩
      | some declared =>
          obtain ⟨name, kind⟩ := declared
          have hname : table.isManaged scope name.text = false :=
            hfree (.declaration name) (by rw [Node.write?, hdeclared]; rfl)
          let symbol : Symbol := ⟨name.text, kind, place, scope, name.position⟩
          have hdeclare : declare scope place name kind table = .ok () (table.define symbol).2 :=
            if_neg (Bool.not_eq_true _ ▸ hname)
          have hkind : symbol.kind.isManaged = false := Statement.isManaged_of_declared? hdeclared
          refine ⟨scope, (table.define symbol).2, ?_, .declared rfl hkind hname⟩
          rw [enter_statement_of_some hdeclared, run_bind, hdeclare]
          rfl
  | expression e =>
      cases e with
      | assign target value span =>
          have hname : table.isManaged scope target.text = false := hfree (.assignment target) rfl
          have hassign : assign scope target table = .ok () table := if_neg (Bool.not_eq_true _ ▸ hname)
          refine ⟨scope, table, ?_, .passed⟩
          rw [enter_assign, run_bind, hassign]
          rfl
      | _ => exact ⟨_, _, rfl, .passed⟩
  | _ => exact ⟨_, _, rfl, .passed⟩

theorem Entered.lexical_mono (h : Entered table scope inner later) {other : ScopeId} (hother : table.Lexical other) :
    later.Lexical other := by
  cases h with
  | opened howner => exact Table.lexical_addScope.mpr (.inl hother)
  | declared hscope hkind hfree => exact Table.lexical_define.mpr hother
  | passed => exact hother

theorem Entered.lexical (h : Entered table scope inner later) (hscope : table.Lexical scope) : later.Lexical inner := by
  cases h with
  | opened howner => exact Table.lexical_addScope.mpr (.inr ⟨rfl, howner⟩)
  | declared _ _ _ => exact Table.lexical_define.mpr hscope
  | passed => exact hscope

/-- No step takes a name from the survey or covers it. -/
theorem Entered.guards (h : Entered table scope inner later) (hguards : table.Guards names)
    (hscope : table.Lexical scope) : later.Guards names := by
  cases h with
  | opened howner => exact hguards.addScope hscope _
  | @declared symbol hsame hkind hfree =>
      have hname : symbol.name ∉ names := by
        rw [← hguards.isManaged_iff hscope, hfree]
        exact Bool.false_ne_true
      have hnew : symbol.kind.isManaged = true ↔ symbol.name ∈ names := by simp [hkind, hname]
      exact hguards.define hnew (fun _ _ => Iff.rfl) fun _ _ => .inr Iff.rfl
  | passed => exact hguards

/-- How steps that come to the given writes end: they blame the first that is refused, or there is none and the names
are guarded as before. -/
def Obeys {α : Type} (names : List String) (writes : List Write) (table : Table) :
    EStateM.Result Diagnostic Table α → Prop
  | .ok _ later =>
    Write.refused? names writes = none ∧ later.Guards names ∧ ∀ scope, table.Lexical scope → later.Lexical scope
  | .error diagnostic _ => (Write.refused? names writes).map Write.diagnostic = some diagnostic

theorem obeys_bind {α β : Type} {step : Declaring α} {next : α → Declaring β} {first second : List Write}
    (hstep : Obeys names first table (step table))
    (hnext : ∀ a later, step table = .ok a later → later.Guards names →
      (∀ scope, table.Lexical scope → later.Lexical scope) → Obeys names second later (next a later)) :
    Obeys names (first ++ second) table ((step >>= next) table) := by
  rw [run_bind]
  cases h : step table with
  | error diagnostic later =>
      rw [h] at hstep
      obtain ⟨write, hwrite, hdiagnostic⟩ := Option.map_eq_some_iff.mp hstep
      show (Write.refused? names (first ++ second)).map Write.diagnostic = some diagnostic
      rw [Write.refused?_append_of_some hwrite, Option.map_some, hdiagnostic]
  | ok a later =>
      rw [h] at hstep
      obtain ⟨hnone, hguards, hlexical⟩ := hstep
      have hrest := hnext a later h hguards hlexical
      show Obeys names (first ++ second) table (next a later)
      cases hlast : next a later with
      | error diagnostic last =>
          rw [hlast] at hrest
          show (Write.refused? names (first ++ second)).map Write.diagnostic = some diagnostic
          rw [Write.refused?_append_of_none hnone]
          exact hrest
      | ok b last =>
          rw [hlast] at hrest
          obtain ⟨hnone', hguards', hlexical'⟩ := hrest
          refine ⟨?_, hguards', fun scope hscope => hlexical' scope (hlexical scope hscope)⟩
          rw [Write.refused?_append_of_none hnone]
          exact hnone'

/-- The step: a node is refused just if it writes a guarded name. -/
theorem enter_obeys (hguards : table.Guards names) (hscope : table.Lexical scope) :
    Obeys names node.write?.toList table (enter scope place node table) ∧
      ∀ inner later, enter scope place node table = .ok inner later → later.Lexical inner := by
  by_cases hrefused : ∃ write, node.write? = some write ∧ write.name.text ∈ names
  · obtain ⟨write, hwrite, hname⟩ := hrefused
    rw [enter_of_isManaged hwrite ((hguards.isManaged_iff hscope).mpr hname)]
    constructor
    · have hfirst : Write.refused? names [write] = some write := List.find?_cons_of_pos (decide_eq_true hname)
      show (Write.refused? names node.write?.toList).map Write.diagnostic = some write.diagnostic
      rw [hwrite, Option.toList_some, hfirst, Option.map_some]
    · intro inner later hok
      cases hok
  · have hfree : ∀ write, node.write? = some write → write.name.text ∉ names :=
      fun write hwrite hname => hrefused ⟨write, hwrite, hname⟩
    obtain ⟨inner, later, hok, hentered⟩ := exists_entered fun write hwrite =>
      Bool.eq_false_iff.mpr fun hmanaged => hfree write hwrite ((hguards.isManaged_iff hscope).mp hmanaged)
    rw [hok]
    constructor
    · refine ⟨?_, hentered.guards hguards hscope, fun _ => hentered.lexical_mono⟩
      rw [Write.refused?_eq_none_iff]
      intro write hwrite
      exact hfree write (Option.mem_toList.mp hwrite)
    · intro _ _ hsame
      cases hsame
      exact hentered.lexical hscope

mutual

theorem outline_obeys {table : Table} {scope : ScopeId} (hguards : table.Guards names)
    (hscope : table.Lexical scope) (place : Place) (tree : Outline) :
    Obeys names tree.writes table (outline scope place tree table) := by
  cases tree with
  | mk node children =>
      rw [outline, Outline.writes]
      obtain ⟨hobeys, hlexical⟩ := enter_obeys hguards hscope
      apply obeys_bind hobeys
      intro inner later hok hguards' _
      exact outlinesFrom_obeys hguards' (hlexical inner later hok) place 0 children

theorem outlinesFrom_obeys {table : Table} {scope : ScopeId} (hguards : table.Guards names)
    (hscope : table.Lexical scope) (place : Place) (index : Nat) (trees : List Outline) :
    Obeys names (Outline.allWrites trees) table (outlinesFrom scope place index trees table) := by
  cases trees with
  | nil => exact ⟨rfl, hguards, fun _ h => h⟩
  | cons first others =>
      rw [outlinesFrom, Outline.allWrites]
      apply obeys_bind (outline_obeys hguards hscope (index :: place) first)
      intro _ later _ hguards' hlexical
      exact outlinesFrom_obeys hguards' (hlexical scope hscope) place (index + 1) others

end

end Declaring

namespace Table

variable {table : Table} {members : ScopeId} {place : Place} {names : List String}

/-- What is defined among the members of a question adds nothing to the lexical scopes. -/
theorem agrees_defineManaged (hmembers : ¬table.Lexical members) (kind : ScopeId → SymbolKind) (name : String)
    (node : Place) (position : Position) :
    table.Agrees (table.defineManaged kind name node members position).2 := by
  have hadd : table.Agrees (table.addScope (.members table.symbols.size) members).2 := .addScope _
  exact hadd.trans (.define fun hlexical => hmembers (hadd.lexical_iff.mp hlexical))

theorem agrees_defineOption (hmembers : ¬table.Lexical members) (child : Outline × Nat) :
    table.Agrees (defineOption members place table child) := by
  unfold defineOption
  cases child.1.node with
  | row option =>
      cases h : option.name? with
      | none => simpa only [h] using Agrees.refl table
      | some name => simpa only [h] using agrees_defineManaged hmembers .row name _ _
  | column option =>
      cases h : option.name? with
      | none => simpa only [h] using Agrees.refl table
      | some name => simpa only [h] using agrees_defineManaged hmembers .column name _ _
  | _ => exact Agrees.refl table

theorem agrees_foldl_defineOption (hmembers : ¬table.Lexical members) (children : List (Outline × Nat)) :
    table.Agrees (children.foldl (defineOption members place) table) := by
  induction children generalizing table with
  | nil => exact Agrees.refl table
  | cons child children ih =>
      have hfirst : table.Agrees (defineOption members place table child) := agrees_defineOption hmembers child
      exact hfirst.trans (ih fun hlexical => hmembers (hfirst.lexical_iff.mp hlexical))

/-- The names are guarded, and there is no lexical scope yet but that of the survey. -/
structure Surveys (table : Table) (names : List String) : Prop where
  guards : table.Guards names
  only : ∀ scope, table.Lexical scope → scope = survey

theorem Surveys.of_agrees {later : Table} (h : table.Surveys names) (hagrees : table.Agrees later) :
    later.Surveys names :=
  ⟨h.guards.of_agrees hagrees, fun scope hscope => h.only scope (hagrees.lexical_iff.mp hscope)⟩

/-- A new name of the survey, in the scope of the survey. -/
theorem Surveys.defineManaged (h : table.Surveys names) {kind : ScopeId → SymbolKind}
    (hkind : ∀ scope, (kind scope).isManaged = true) (name : String) (node : Place) (position : Position) :
    (table.defineManaged kind name node survey position).2.Surveys (names ++ [name]) := by
  have hadd : table.Agrees (table.addScope (.members table.symbols.size) survey).2 := .addScope _
  have hadded := h.of_agrees hadd
  constructor
  · apply hadded.guards.define
    · simp [hkind]
    · intro other hne
      simp [hne]
    · intro scope hlexical
      exact .inl (hadded.only scope hlexical).symm
  · intro scope hlexical
    exact hadded.only scope (lexical_define.mp hlexical)

theorem not_lexical_defineManaged (kind : ScopeId → SymbolKind) (name : String) (node : Place) (scope : ScopeId)
    (position : Position) :
    ¬(table.defineManaged kind name node scope position).2.Lexical table.scopes.size := by
  intro hlexical
  rcases lexical_addScope.mp (lexical_define.mp hlexical) with hold | ⟨-, howner⟩
  · exact Nat.lt_irrefl _ hold.lt_size
  · exact Bool.false_ne_true howner

theorem surveys_defineQuestion (h : table.Surveys names) (component : Component) (index : Nat) :
    (table.defineQuestion (.ofComponent component, index)).Surveys (names ++ component.questionName?.toList) := by
  have hnone : component.questionName? = none →
      table.Surveys (names ++ component.questionName?.toList) := by
    intro hname
    rw [hname, Option.toList_none, List.append_nil]
    exact h
  cases component with
  | heading heading => exact hnone rfl
  | interlude interlude => exact hnone rfl
  | question q =>
      cases hname : q.name? with
      | none => simpa only [defineQuestion, Outline.ofComponent, Outline.node, hname] using hnone hname
      | some name =>
          have hnames : Component.questionName? (.question q) = some name := hname
          simp only [defineQuestion, Outline.ofComponent, Outline.node, hname]
          rw [hnames]
          refine (h.defineManaged (fun _ => rfl) name _ _).of_agrees (agrees_foldl_defineOption ?_ _)
          exact not_lexical_defineManaged _ _ _ _ _

theorem surveys_foldl_defineQuestion (h : table.Surveys names) (components : List Component) (start : Nat) :
    (((components.map Outline.ofComponent).zipIdx start).foldl defineQuestion table).Surveys
      (names ++ components.filterMap Component.questionName?) := by
  induction components generalizing table names start with
  | nil =>
      rw [List.filterMap_nil, List.append_nil]
      exact h
  | cons component components ih =>
      have hrest := ih (surveys_defineQuestion h component start) (start + 1)
      rw [List.append_assoc] at hrest
      rw [List.map_cons, List.zipIdx_cons, List.foldl_cons]
      cases hname : component.questionName? with
      | none =>
          rw [List.filterMap_cons_none hname]
          rwa [hname] at hrest
      | some name =>
          rw [List.filterMap_cons_some hname]
          rwa [hname] at hrest

theorem surveys_empty : empty.Surveys [] := by
  refine ⟨.empty, fun scope hscope => ?_⟩
  exact Nat.lt_one_iff.mp hscope.lt_size

theorem surveys_ofQuestions (document : Document) : (ofQuestions document).Surveys document.questionNames :=
  surveys_foldl_defineQuestion surveys_empty document.components 0

/-- A table comes of a document in which no write is refused, and a diagnostic is that of the first one refused. -/
theorem ofDocument_obeys (document : Document) :
    match ofDocument document with
    | .ok _ => Write.refused? document.questionNames document.writes = none
    | .error diagnostic =>
      (Write.refused? document.questionNames document.writes).map Write.diagnostic = some diagnostic := by
  have hsurveys := surveys_ofQuestions document
  have hobeys := Declaring.outlinesFrom_obeys hsurveys.guards hsurveys.guards.lexical_survey [] 0 document.outlines
  rw [Document.allWrites_outlines] at hobeys
  rw [ofDocument_eq]
  cases hrun : Declaring.outlinesFrom survey [] 0 document.outlines (ofQuestions document) with
  | ok _ table =>
      rw [hrun] at hobeys
      exact hobeys.1
  | error diagnostic table =>
      rw [hrun] at hobeys
      exact hobeys

theorem exists_ofDocument_iff {document : Document} : (∃ table, ofDocument document = .ok table) ↔
    Write.refused? document.questionNames document.writes = none := by
  have hobeys := ofDocument_obeys document
  cases h : ofDocument document with
  | ok table =>
      rw [h] at hobeys
      exact ⟨fun _ => hobeys, fun _ => ⟨table, rfl⟩⟩
  | error diagnostic =>
      rw [h] at hobeys
      constructor
      · rintro ⟨table, htable⟩
        cases htable
      · intro hnone
        rw [hnone] at hobeys
        cases hobeys

theorem ofDocument_eq_error_iff {document : Document} {diagnostic : Diagnostic} :
    ofDocument document = .error diagnostic ↔
      ∃ write, Write.refused? document.questionNames document.writes = some write ∧ diagnostic = write.diagnostic := by
  have hobeys := ofDocument_obeys document
  cases h : ofDocument document with
  | ok table =>
      rw [h] at hobeys
      constructor
      · intro herror
        cases herror
      · rintro ⟨write, hwrite, _⟩
        rw [hobeys] at hwrite
        cases hwrite
  | error blamed =>
      rw [h] at hobeys
      obtain ⟨write, hwrite, rfl⟩ := Option.map_eq_some_iff.mp hobeys
      constructor
      · intro herror
        exact ⟨write, hwrite, (Except.error.inj herror).symm⟩
      · rintro ⟨other, hother, rfl⟩
        rw [Option.some.inj (hwrite.symm.trans hother)]

/-- The names of the survey are read-only, wherever their questions stand: there is a table just if the document
writes none of them, and else the first write of one in the order of a walk is to blame. -/
theorem ofDocument_readOnly (document : Document) :
    ((∃ table, ofDocument document = .ok table) ↔
      ∀ write ∈ document.writes, write.name.text ∉ document.questionNames) ∧
    (∀ diagnostic, ofDocument document = .error diagnostic ↔
      ∃ earlier write later, document.writes = earlier ++ write :: later ∧
        (∀ other ∈ earlier, other.name.text ∉ document.questionNames) ∧
        write.name.text ∈ document.questionNames ∧ diagnostic = write.diagnostic) ∧
    document.nodes.filterMap Node.write? = document.writes ∧
    ∀ write : Write, write.diagnostic.kind = "Semantic" ∧ write.diagnostic.position = write.name.position ∧
      write.diagnostic.message = write.name.text ++ " is managed by the survey and " ++ write.refusal := by
  refine ⟨?_, fun diagnostic => ?_, document.filterMap_nodes, fun write => ?_⟩
  · rw [exists_ofDocument_iff, Write.refused?_eq_none_iff]
  · rw [ofDocument_eq_error_iff]
    constructor
    · rintro ⟨write, hwrite, hdiagnostic⟩
      obtain ⟨earlier, later, heq, hearlier, hname⟩ := Write.refused?_eq_some_iff.mp hwrite
      exact ⟨earlier, write, later, heq, hearlier, hname, hdiagnostic⟩
    · rintro ⟨earlier, write, later, heq, hearlier, hname, hdiagnostic⟩
      exact ⟨write, Write.refused?_eq_some_iff.mpr ⟨earlier, later, heq, hearlier, hname⟩, hdiagnostic⟩
  · exact ⟨write.diagnostic_kind, rfl, write.diagnostic_message⟩

end Table

end Questionnaire
