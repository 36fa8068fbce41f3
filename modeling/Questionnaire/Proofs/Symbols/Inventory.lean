import Questionnaire.Proofs.Symbols.Kept
import Questionnaire.Proofs.Symbols.Log

/-! The symbols of a document. Questions and options are defined one after another, each with a scope for its members
that is opened just before, so that the scope of the members of a symbol has the number after the symbol's. What a walk
adds to them are the declarations it comes to, in their order, and nothing that has members. -/

namespace Questionnaire

/-- A row or a column, by what the symbol for it is. -/
abbrev KindedOption := (ScopeId → SymbolKind) × AnswerOption

def Question.members (q : Question) : List KindedOption := q.rows.map (Prod.mk .row) ++ q.columns.map (Prod.mk .column)

theorem Question.map_snd_members (q : Question) : q.members.map Prod.snd = q.options := by
  simp [members, options]

/-- The symbols of options in a scope, from an id and the number of a child on. -/
def memberSymbols (scope : ScopeId) (place : Place) : SymbolId → Nat → List KindedOption → List Symbol
  | _, _, [] => []
  | id, number, member :: members =>
    match member.2.name? with
    | some name =>
      ⟨name, member.1 (id + 1), number :: place, scope, member.2.span.first.position⟩ ::
        memberSymbols scope place (id + 1) (number + 1) members
    | none => memberSymbols scope place id (number + 1) members

/-- The symbols of a question and its options, from an id on. -/
def Component.symbols (id : SymbolId) (index : Nat) : Component → List Symbol
  | .question q =>
    match q.name? with
    | some name =>
      ⟨name, .question (id + 1), [index], Table.survey, q.span.first.position⟩ ::
        memberSymbols (id + 1) [index] (id + 1) q.offset q.members
    | none => []
  | .heading _ => []
  | .interlude _ => []

def surveySymbols (components : List Component) : List Symbol :=
  components.zipIdx.foldl (fun symbols component => symbols ++ component.1.symbols symbols.length component.2) []

theorem surveySymbols_concat (components : List Component) (component : Component) :
    surveySymbols (components ++ [component]) =
      surveySymbols components ++ component.symbols (surveySymbols components).length components.length := by
  rw [surveySymbols, List.zipIdx_append, List.foldl_append, ← surveySymbols]
  simp

section Listed

variable {members : List KindedOption} {member : KindedOption} {scope : ScopeId} {place : Place} {id first : SymbolId}
  {number offset index : Nat} {symbol : Symbol} {name : String} {components : List Component} {q : Question}

theorem exists_of_memberSymbols (h : (memberSymbols scope place id number members)[offset]? = some symbol) :
    ∃ (index : Nat) (member : KindedOption), members[index]? = some member ∧ member.2.name? = some symbol.name ∧
      symbol = ⟨symbol.name, member.1 (id + offset + 1), (number + index) :: place, scope,
        member.2.span.first.position⟩ := by
  induction members generalizing id number offset with
  | nil => cases h
  | cons first members ih =>
      rw [memberSymbols] at h
      cases hname : first.2.name? with
      | none =>
          rw [hname] at h
          obtain ⟨index, member, hmember, hsame, hsymbol⟩ := ih h
          refine ⟨index + 1, member, hmember, hsame, ?_⟩
          rw [← Nat.add_assoc, Nat.add_right_comm number]
          exact hsymbol
      | some name =>
          rw [hname] at h
          cases offset with
          | zero =>
              cases h
              exact ⟨0, first, rfl, hname, rfl⟩
          | succ offset =>
              obtain ⟨index, member, hmember, hsame, hsymbol⟩ := ih h
              refine ⟨index + 1, member, hmember, hsame, ?_⟩
              rw [← Nat.add_assoc, ← Nat.add_assoc, Nat.add_right_comm number, Nat.add_right_comm id]
              exact hsymbol

theorem exists_memberSymbols (hmember : members[index]? = some member) (hname : member.2.name? = some name) :
    ∃ offset : Nat, (memberSymbols scope place id number members)[offset]? =
      some ⟨name, member.1 (id + offset + 1), (number + index) :: place, scope, member.2.span.first.position⟩ := by
  induction members generalizing id number index with
  | nil => cases hmember
  | cons first members ih =>
      rw [memberSymbols]
      cases index with
      | zero =>
          cases hmember
          rw [hname]
          exact ⟨0, rfl⟩
      | succ index =>
          rw [← Nat.add_assoc, Nat.add_right_comm number]
          cases first.2.name? with
          | none => exact ih hmember
          | some other =>
              obtain ⟨offset, hsymbol⟩ := @ih (id + 1) (number + 1) index hmember
              refine ⟨offset + 1, ?_⟩
              rw [← Nat.add_assoc, Nat.add_right_comm id]
              exact hsymbol

theorem exists_node_of_mem {node : Place}
    (h : node ∈ (memberSymbols scope place id number members).map Symbol.node) :
    ∃ index : Nat, node = (number + index) :: place := by
  obtain ⟨symbol, hsymbol, rfl⟩ := List.mem_map.mp h
  obtain ⟨offset, hoffset⟩ := List.mem_iff_getElem?.mp hsymbol
  obtain ⟨index, member, -, -, heq⟩ := exists_of_memberSymbols hoffset
  exact ⟨index, congrArg Symbol.node heq⟩

theorem nodup_memberSymbols : ((memberSymbols scope place id number members).map Symbol.node).Nodup := by
  induction members generalizing id number with
  | nil => exact List.nodup_nil
  | cons first members ih =>
      rw [memberSymbols]
      cases first.2.name? with
      | none => exact ih
      | some name =>
          refine List.nodup_cons.mpr ⟨fun hmem => ?_, ih⟩
          obtain ⟨index, hnode⟩ := exists_node_of_mem hmem
          have hnumber := (List.cons.inj hnode).1
          omega

theorem Question.members?_of_mem {q : Question} (h : member ∈ q.members) (scope : ScopeId) :
    (member.1 scope).members? = some scope := by
  rcases List.mem_append.mp h with hrow | hcolumn
  · obtain ⟨option, -, rfl⟩ := List.mem_map.mp hrow
    rfl
  · obtain ⟨option, -, rfl⟩ := List.mem_map.mp hcolumn
    rfl

/-- The question at the index has the symbol with the id, and its options have the next ones. -/
structure Asking (components : List Component) (id : SymbolId) (index : Nat) (q : Question) (name : String) : Prop where
  component : components[index]? = some (.question q)
  named : q.name? = some name
  symbol : (surveySymbols components)[id]? =
    some ⟨name, .question (id + 1), [index], Table.survey, q.span.first.position⟩
  options : ∀ {offset symbol}, (memberSymbols (id + 1) [index] (id + 1) q.offset q.members)[offset]? = some symbol →
    (surveySymbols components)[id + 1 + offset]? = some symbol

theorem Asking.concat (h : Asking components id index q name) (component : Component) :
    Asking (components ++ [component]) id index q name := by
  have happend {number : Nat} {symbol : Symbol} (hsymbol : (surveySymbols components)[number]? = some symbol) :
      (surveySymbols (components ++ [component]))[number]? = some symbol := by
    rw [surveySymbols_concat, List.getElem?_append_left (List.getElem?_eq_some_iff.mp hsymbol).1]
    exact hsymbol
  refine ⟨?_, h.named, happend h.symbol, fun {offset symbol} hsymbol => happend (h.options hsymbol)⟩
  rw [List.getElem?_append_left (List.getElem?_eq_some_iff.mp h.component).1]
  exact h.component

theorem asking_concat (hname : q.name? = some name) :
    Asking (components ++ [.question q]) (surveySymbols components).length components.length q name := by
  have hsymbols := surveySymbols_concat components (.question q)
  simp only [Component.symbols, hname] at hsymbols
  refine ⟨List.getElem?_concat_length, hname, ?_, fun {offset symbol} hsymbol => ?_⟩
  · rw [hsymbols, List.getElem?_append_right (Nat.le_refl _), Nat.sub_self]
    rfl
  · rw [hsymbols, List.getElem?_append_right (by omega), Nat.add_assoc, Nat.add_sub_cancel_left, Nat.add_comm 1]
    exact hsymbol

theorem exists_asking (hindex : components[index]? = some (.question q)) (hname : q.name? = some name) :
    ∃ id, Asking components id index q name := by
  induction components using List.reverseRecOn with
  | nil => cases hindex
  | append_singleton components component ih =>
      by_cases hlt : index < components.length
      · rw [List.getElem?_append_left hlt] at hindex
        obtain ⟨id, hasking⟩ := ih hindex
        exact ⟨id, hasking.concat component⟩
      · have hbound := (List.getElem?_eq_some_iff.mp hindex).1
        rw [List.length_append, List.length_singleton] at hbound
        obtain rfl : index = components.length := by omega
        rw [List.getElem?_concat_length] at hindex
        cases hindex
        exact ⟨_, asking_concat hname⟩

/-- Every symbol is that of a question, or else of one of its options. -/
theorem exists_asking_of_listed (h : (surveySymbols components)[id]? = some symbol) :
    ∃ first index q name, Asking components first index q name ∧
      ((id = first ∧ symbol = ⟨name, .question (first + 1), [index], Table.survey, q.span.first.position⟩) ∨
        ∃ offset, id = first + 1 + offset ∧
          (memberSymbols (first + 1) [index] (first + 1) q.offset q.members)[offset]? = some symbol) := by
  induction components using List.reverseRecOn with
  | nil => cases h
  | append_singleton components component ih =>
      by_cases hlt : id < (surveySymbols components).length
      · rw [surveySymbols_concat, List.getElem?_append_left hlt] at h
        obtain ⟨first, index, q, name, hasking, hcases⟩ := ih h
        exact ⟨first, index, q, name, hasking.concat component, hcases⟩
      · obtain ⟨offset, rfl⟩ := Nat.exists_eq_add_of_le (Nat.le_of_not_lt hlt)
        rw [surveySymbols_concat, List.getElem?_append_right (Nat.le_add_right _ _), Nat.add_sub_cancel_left] at h
        cases component with
        | heading heading => cases h
        | interlude interlude => cases h
        | question q =>
            cases hname : q.name? with
            | none =>
                simp only [Component.symbols, hname] at h
                cases h
            | some name =>
                simp only [Component.symbols, hname] at h
                refine ⟨_, _, q, name, asking_concat hname, ?_⟩
                cases offset with
                | zero =>
                    cases h
                    exact .inl ⟨rfl, rfl⟩
                | succ offset => exact .inr ⟨offset, by rw [Nat.add_assoc, Nat.add_comm 1], h⟩

theorem members?_of_listed (h : (surveySymbols components)[id]? = some symbol) :
    symbol.kind.members? = some (id + 1) := by
  obtain ⟨first, index, q, name, hasking, ⟨rfl, rfl⟩ | ⟨offset, rfl, hoption⟩⟩ := exists_asking_of_listed h
  · rfl
  · obtain ⟨index, member, hmember, -, heq⟩ := exists_of_memberSymbols hoption
    rw [heq]
    exact Question.members?_of_mem (List.mem_of_getElem? hmember) _

/-- A symbol that is not of the survey itself is that of an option. -/
theorem exists_asking_of_scope (h : (surveySymbols components)[id]? = some symbol)
    (hscope : symbol.scope ≠ Table.survey) : ∃ first index q name, Asking components first index q name ∧
      symbol.scope = first + 1 ∧ ∃ option ∈ q.options, option.name? = some symbol.name := by
  obtain ⟨first, index, q, name, hasking, ⟨-, rfl⟩ | ⟨offset, -, hoption⟩⟩ := exists_asking_of_listed h
  · exact absurd rfl hscope
  · obtain ⟨number, member, hmember, hname, heq⟩ := exists_of_memberSymbols hoption
    refine ⟨first, index, q, name, hasking, congrArg Symbol.scope heq, member.2, ?_, hname⟩
    rw [← Question.map_snd_members]
    exact List.mem_map_of_mem (List.mem_of_getElem? hmember)

theorem getLast?_of_mem_symbols {component : Component} {node : Place}
    (h : node ∈ (component.symbols id index).map Symbol.node) : node.getLast? = some index := by
  cases component with
  | heading heading => cases h
  | interlude interlude => cases h
  | question q =>
      rw [Component.symbols] at h
      cases hname : q.name? with
      | none =>
          rw [hname] at h
          cases h
      | some name =>
          rw [hname] at h
          rcases List.mem_cons.mp h with rfl | hoption
          · rfl
          · obtain ⟨number, rfl⟩ := exists_node_of_mem hoption
            rfl

theorem nodup_symbols (component : Component) (id : SymbolId) (index : Nat) :
    ((component.symbols id index).map Symbol.node).Nodup := by
  cases component with
  | heading heading => exact List.nodup_nil
  | interlude interlude => exact List.nodup_nil
  | question q =>
      rw [Component.symbols]
      cases q.name? with
      | none => exact List.nodup_nil
      | some name =>
          refine List.nodup_cons.mpr ⟨fun hmem => ?_, nodup_memberSymbols⟩
          obtain ⟨number, hnode⟩ := exists_node_of_mem hmem
          exact List.cons_ne_nil _ _ (List.cons.inj hnode).2.symm

theorem exists_getLast? {node : Place} (h : node ∈ (surveySymbols components).map Symbol.node) :
    ∃ index < components.length, node.getLast? = some index := by
  induction components using List.reverseRecOn with
  | nil => cases h
  | append_singleton components component ih =>
      rw [surveySymbols_concat, List.map_append, List.mem_append] at h
      rw [List.length_append, List.length_singleton]
      rcases h with hbefore | hhere
      · obtain ⟨index, hlt, hlast⟩ := ih hbefore
        exact ⟨index, Nat.lt_succ_of_lt hlt, hlast⟩
      · exact ⟨components.length, Nat.lt_succ_self _, getLast?_of_mem_symbols hhere⟩

/-- No node has two symbols. -/
theorem nodup_surveySymbols (components : List Component) : ((surveySymbols components).map Symbol.node).Nodup := by
  induction components using List.reverseRecOn with
  | nil => exact List.nodup_nil
  | append_singleton components component ih =>
      rw [surveySymbols_concat, List.map_append, List.nodup_append]
      refine ⟨ih, nodup_symbols component _ _, fun node hbefore other hhere hsame => ?_⟩
      obtain ⟨index, hlt, hlast⟩ := exists_getLast? hbefore
      rw [hsame, getLast?_of_mem_symbols hhere] at hlast
      exact Nat.ne_of_gt hlt (Option.some.inj hlast)

theorem eq_of_node {other : SymbolId} {found : Symbol} (h : (surveySymbols components)[id]? = some symbol)
    (hother : (surveySymbols components)[other]? = some found) (hnode : symbol.node = found.node) : id = other := by
  have hlt : id < ((surveySymbols components).map Symbol.node).length := by
    rw [List.length_map]
    exact (List.getElem?_eq_some_iff.mp h).1
  refine (List.getElem?_inj hlt (nodup_surveySymbols components)).mp ?_
  rw [List.getElem?_map, List.getElem?_map, h, hother, Option.map_some, Option.map_some, hnode]

end Listed

namespace Table

variable {table later : Table} {scope : ScopeId} {name : String} {symbols : List Symbol} {place node : Place}
  {position : Position} {log : Log}

theorem Records.defineManaged (h : table.Records log) (hlt : scope < log.count) (kind : ScopeId → SymbolKind) :
    ∃ more, (table.defineManaged kind name node scope position).2.Records more := by
  have hadd := h.addScope (.members table.symbols.size) hlt
  refine ⟨_, hadd.define ?_⟩
  rw [← hadd.size, size_scopes_addScope, h.size]
  exact Nat.lt_succ_of_lt hlt

/-- The table has just the symbols, and besides the scope of the survey one for the members of each. -/
structure Housed (table : Table) (symbols : List Symbol) : Prop where
  listed : table.symbols.toList = symbols
  frames : table.frames = (.survey, none) :: symbols.mapIdx fun id symbol => (.members id, some symbol.scope)
  records : ∃ log, table.Records log

theorem housed_empty : empty.Housed [] := ⟨rfl, rfl, [], .empty⟩

namespace Housed

theorem size (h : table.Housed symbols) : table.scopes.size = symbols.length + 1 := by
  rw [← length_frames, h.frames, List.length_cons, List.length_mapIdx]

theorem size_symbols (h : table.Housed symbols) : table.symbols.size = symbols.length := by
  rw [← h.listed, Array.length_toList]

theorem getElem?_symbols (h : table.Housed symbols) (id : SymbolId) : table.symbols[id]? = symbols[id]? := by
  rw [← h.listed, Array.getElem?_toList]

theorem defineManaged (h : table.Housed symbols) (hscope : scope ≤ symbols.length) (kind : ScopeId → SymbolKind)
    (name : String) (node : Place) (position : Position) :
    (table.defineManaged kind name node scope position).2.Housed
      (symbols ++ [⟨name, kind (symbols.length + 1), node, scope, position⟩]) where
  listed := by
    rw [← h.size, ← h.listed]
    exact Array.toList_push
  frames := by
    rw [List.mapIdx_concat, ← List.cons_append, ← h.frames, ← h.size_symbols]
    exact (frames_define _ _).trans (frames_addScope table _ scope)
  records := by
    obtain ⟨log, hlog⟩ := h.records
    refine hlog.defineManaged ?_ kind
    rw [← hlog.size, h.size]
    exact Nat.lt_succ_of_le hscope

end Housed

/-- Adds an option, if it has a name. -/
def defineMember (scope : ScopeId) (place : Place) (table : Table) (member : KindedOption × Nat) : Table :=
  match member.1.2.name? with
  | some name =>
    (table.defineManaged member.1.1 name (member.2 :: place) scope member.1.2.span.first.position).2
  | none => table

theorem foldl_defineOption_map {make : AnswerOption → Outline} {kind : ScopeId → SymbolKind}
    (hmake : ∀ option number table,
      defineOption scope place table (make option, number) = defineMember scope place table ((kind, option), number))
    (options : List AnswerOption) (number : Nat) (table : Table) :
    ((options.map make).zipIdx number).foldl (defineOption scope place) table =
      ((options.map (Prod.mk kind)).zipIdx number).foldl (defineMember scope place) table := by
  induction options generalizing number table with
  | nil => rfl
  | cons option options ih =>
      simp only [List.map_cons, List.zipIdx_cons, List.foldl_cons]
      rw [hmake, ih]

/-- Of the children of a question only the rows and columns are defined. -/
theorem foldl_defineOption_children (q : Question) (table : Table) :
    (Outline.ofComponent (.question q)).children.zipIdx.foldl (defineOption scope place) table =
      (q.members.zipIdx q.offset).foldl (defineMember scope place) table := by
  obtain ⟨parts, hplain, hlength, hchildren⟩ := exists_children q
  rw [hchildren, List.zipIdx_append, List.zipIdx_append, List.foldl_append, List.foldl_append,
    foldl_defineOption_eq hplain, foldl_defineOption_map fun _ _ _ => rfl, foldl_defineOption_map fun _ _ _ => rfl,
    Question.members, List.zipIdx_append, List.foldl_append]
  simp [hlength]

namespace Housed

theorem foldl_defineMember (h : table.Housed symbols) (hscope : scope ≤ symbols.length) (number : Nat)
    (members : List KindedOption) :
    ((members.zipIdx number).foldl (defineMember scope place) table).Housed
      (symbols ++ memberSymbols scope place symbols.length number members) := by
  induction members generalizing table symbols number with
  | nil =>
      rw [memberSymbols, List.append_nil]
      exact h
  | cons member members ih =>
      rw [List.zipIdx_cons, List.foldl_cons]
      cases hname : member.2.name? with
      | none =>
          simp only [memberSymbols, defineMember, hname]
          exact ih h hscope (number + 1)
      | some name =>
          have hstep := h.defineManaged hscope member.1 name (number :: place) member.2.span.first.position
          have hrest := ih hstep (Nat.le_trans hscope (by simp)) (number + 1)
          rw [List.length_append, List.length_singleton, List.append_assoc] at hrest
          simp only [memberSymbols, defineMember, hname]
          exact hrest

/-- The question step. -/
theorem defineQuestion (h : table.Housed symbols) (component : Component) (index : Nat) :
    (table.defineQuestion (.ofComponent component, index)).Housed
      (symbols ++ component.symbols symbols.length index) := by
  cases component with
  | heading heading =>
      rw [Component.symbols, List.append_nil]
      exact h
  | interlude interlude =>
      rw [Component.symbols, List.append_nil]
      exact h
  | question q =>
      cases hname : q.name? with
      | none =>
          simp only [Table.defineQuestion, Outline.ofComponent, Outline.node, Component.symbols, hname, List.append_nil]
          exact h
      | some name =>
          have hstep := h.defineManaged (Nat.zero_le _) .question name [index] q.span.first.position
          have hrest := @foldl_defineMember _ (symbols.length + 1) _ [index] hstep (by simp) q.offset q.members
          rw [List.length_append, List.length_singleton, List.append_assoc] at hrest
          rw [← foldl_defineOption_children, ← h.size] at hrest
          simp only [Table.defineQuestion, Outline.ofComponent, Outline.node, Component.symbols, hname, ← h.size]
          exact hrest

end Housed

theorem housed_ofQuestions (document : Document) :
    (ofQuestions document).Housed (surveySymbols document.components) := by
  rw [ofQuestions, Document.outlines]
  induction document.components using List.reverseRecOn with
  | nil => exact housed_empty
  | append_singleton components component ih =>
      rw [surveySymbols_concat, List.map_append, List.zipIdx_append, List.foldl_append]
      simpa using ih.defineQuestion component components.length

end Table

namespace Table.Log

theorem count_le_append (log more : Log) : log.count ≤ count (log ++ more) := by
  rw [count, count, frames_append, List.length_append]
  exact Nat.le_add_right _ _

end Table.Log

namespace Declaring

open Table

variable {table later : Table} {scope inner : ScopeId} {place : Place} {node : Node} {log : Log} {index : Nat}

/-- The name that is declared where the node is come to. -/
def declared? : Place × Node → Option (Place × String × SymbolKind)
  | (place, .statement statement) => statement.declared?.map fun declared => (place, declared.1.text, declared.2)
  | _ => none

theorem isManaged_of_declared? {visit : Place × Node} {name : String} {kind : SymbolKind}
    (h : declared? visit = some (place, name, kind)) : kind.isManaged = false := by
  obtain ⟨other, node⟩ := visit
  cases node with
  | statement statement =>
      obtain ⟨⟨token, found⟩, hdeclared, heq⟩ := Option.map_eq_some_iff.mp h
      cases heq
      exact Statement.isManaged_of_declared? hdeclared
  | _ => cases h

/-- The step: what is added where a node is come to is a scope that is opened, or the symbol of a declaration. -/
theorem enter_records (h : table.Records log) (hlt : scope < log.count)
    (henter : enter scope place node table = .ok inner later) :
    ∃ more, later.Records (log ++ more) ∧ inner < Log.count (log ++ more) ∧
      more.symbols.map (fun symbol => (symbol.node, symbol.name, symbol.kind)) = (declared? (place, node)).toList := by
  have hopened (owner : ScopeOwner) : ∃ more, (table.addScope owner scope).2.Records (log ++ more) ∧
      table.scopes.size < Log.count (log ++ more) ∧
        more.symbols.map (fun symbol => (symbol.node, symbol.name, symbol.kind)) = [] := by
    have hadd := h.addScope owner hlt
    refine ⟨[.addScope owner scope], hadd, ?_, rfl⟩
    rw [← hadd.size, size_scopes_addScope]
    exact Nat.lt_succ_self _
  have hpassed : ∃ more, table.Records (log ++ more) ∧ scope < Log.count (log ++ more) ∧
      more.symbols.map (fun symbol => (symbol.node, symbol.name, symbol.kind)) = [] :=
    ⟨[], by rwa [List.append_nil], by rwa [List.append_nil], rfl⟩
  cases node with
  | interlude i =>
      cases henter
      exact hopened _
  | block b =>
      cases henter
      exact hopened _
  | statement statement =>
      obtain ⟨rfl, hstep⟩ := enter_statement_eq_ok henter
      rw [declared?]
      cases hdeclared : statement.declared? with
      | none =>
          rw [hdeclared] at hstep
          obtain rfl : later = table := hstep
          exact hpassed
      | some declared =>
          obtain ⟨name, kind⟩ := declared
          rw [hdeclared] at hstep
          obtain rfl : later = _ := hstep
          refine ⟨_, h.define hlt, ?_, rfl⟩
          exact Nat.lt_of_lt_of_le hlt (Log.count_le_append _ _)
  | expression expr =>
      obtain ⟨rfl, rfl⟩ := quiet_expression expr _ _ _ _ _ henter
      exact hpassed
  | _ =>
      cases henter
      exact hpassed

mutual

/-- The run: symbols are added in the order of a walk. -/
theorem outline_records {table later : Table} {scope : ScopeId} {place : Place} {log : Log} (tree : Outline)
    (h : table.Records log) (hlt : scope < log.count) (hrun : outline scope place tree table = .ok () later) :
    ∃ more, later.Records (log ++ more) ∧ more.symbols.map (fun symbol => (symbol.node, symbol.name, symbol.kind)) =
      (tree.visits place).filterMap declared? := by
  cases tree with
  | mk node children =>
      obtain ⟨inner, middle, henter, hwalk⟩ := outline_eq_ok.mp hrun
      obtain ⟨first, hfirst, hinner, hentered⟩ := enter_records h hlt henter
      obtain ⟨others, hothers, hchildren⟩ := outlinesFrom_records children hfirst hinner hwalk
      rw [List.append_assoc] at hothers
      refine ⟨first ++ others, hothers, ?_⟩
      rw [Log.symbols_append, ← Log.symbols, List.map_append, hentered, hchildren, Outline.visits, List.filterMap_cons]
      cases declared? (place, node) <;> rfl

theorem outlinesFrom_records {table later : Table} {scope : ScopeId} {place : Place} {index : Nat} {log : Log}
    (trees : List Outline) (h : table.Records log) (hlt : scope < log.count)
    (hrun : outlinesFrom scope place index trees table = .ok () later) :
    ∃ more, later.Records (log ++ more) ∧ more.symbols.map (fun symbol => (symbol.node, symbol.name, symbol.kind)) =
      (Outline.visitsFrom place index trees).filterMap declared? := by
  cases trees with
  | nil =>
      cases hrun
      exact ⟨[], by rwa [List.append_nil], rfl⟩
  | cons tree trees =>
      obtain ⟨middle, hfirst, hrest⟩ := outlinesFrom_cons_eq_ok.mp hrun
      obtain ⟨first, hfirst, htree⟩ := outline_records tree h hlt hfirst
      have hlt' := Nat.lt_of_lt_of_le hlt (Log.count_le_append log first)
      obtain ⟨others, hothers, htrees⟩ := outlinesFrom_records trees hfirst hlt' hrest
      rw [List.append_assoc] at hothers
      refine ⟨first ++ others, hothers, ?_⟩
      rw [Log.symbols_append, ← Log.symbols, List.map_append, htree, htrees, Outline.visitsFrom, List.filterMap_append]

end

end Declaring

namespace Table

variable {table : Table} {document : Document} {log : Log} {scope : ScopeId} {name : String} {id : SymbolId}

/-- The table of a document has the symbols of its questions and options, and then those of its declarations in the
order of a walk. -/
theorem symbols_of_ofDocument (h : ofDocument document = .ok table) :
    (∃ log, table.Records log) ∧ ∃ declared,
      table.symbols.toList = surveySymbols document.components ++ declared ∧
        declared.map (fun symbol => (symbol.node, symbol.name, symbol.kind)) =
          document.visits.filterMap Declaring.declared? := by
  have hhoused := housed_ofQuestions document
  obtain ⟨log, hlog⟩ := hhoused.records
  have hlt : survey < log.count := by
    rw [← hlog.size, hhoused.size]
    exact Nat.succ_pos _
  rw [ofDocument_eq] at h
  split at h
  next later hrun =>
    cases h
    obtain ⟨more, hmore, hdeclared⟩ := Declaring.outlinesFrom_records document.outlines hlog hlt hrun
    refine ⟨⟨_, hmore⟩, more.symbols, ?_, hdeclared⟩
    rw [hmore.symbols, Log.symbols_append, ← hlog.symbols, hhoused.listed, ← Log.symbols]
  next => cases h

end Table

end Questionnaire
