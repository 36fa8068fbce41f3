import Questionnaire.Analysis
import Questionnaire.Proofs.Legality.Check
import Questionnaire.Proofs.Symbols.Scoping

/-! What becomes of the names of a survey. A question is known by its name, and a row or a column by its name within
that question, until another one of the same name comes: nothing keeps two questions from having one name, nor two
options of a question, and it is the last one that is found. -/

namespace Questionnaire

/-- The options of a question in the order in which they are defined. -/
def Question.options (q : Question) : List AnswerOption := q.rows ++ q.columns

/-- The index of the first option among the children of its question. -/
def Question.offset (q : Question) : Nat := q.texts.length + q.attributes.length

/-- The option, if it has the name. -/
def AnswerOption.option? (name : String) (option : AnswerOption) : Option AnswerOption :=
  if option.name? = some name then some option else none

/-- The names of the options of a question; nothing else has options. -/
def Component.optionNames : Component → List String
  | .question q => q.options.filterMap AnswerOption.name?
  | .heading _ => []
  | .interlude _ => []

/-- The path is resolved in the survey, to a symbol of the node at the place. -/
def Table.Means (table : Table) (path : List String) (place : Place) : Prop :=
  ∃ id symbol, table.resolvePath Table.survey path = some id ∧ table.symbols[id]? = some symbol ∧ symbol.node = place

/-- A name means the last question that has it, and with it the name of an option the last one of that question. -/
def Document.LastIn (document : Document) (table : Table) : Prop :=
  ∀ name index q, lastSome? (Component.question? name) document.components = some (index, q) →
    table.Means [name] [index] ∧
      ∀ member number option, lastSome? (AnswerOption.option? member) q.options = some (number, option) →
        table.Means [name, member] [q.offset + number, index]

/-- All questions, rows and columns of the document have names, and are what their names mean in the table. -/
structure Document.KeptIn (document : Document) (table : Table) : Prop where
  questions : ∀ (index : Nat) q, document.components[index]? = some (.question q) →
    ∃ name, q.name? = some name ∧ table.Means [name] [index]
  options : ∀ (index : Nat) q, document.components[index]? = some (.question q) →
    ∀ (number : Nat) option, q.options[number]? = some option →
      ∃ name member, q.name? = some name ∧ option.name? = some member ∧
        table.Means [name, member] [q.offset + number, index]

/-- No two questions have the same name, nor have two options of one question. -/
structure Document.NamedApart (document : Document) : Prop where
  questions : document.questionNames.Nodup
  options : ∀ component ∈ document.components, component.optionNames.Nodup

instance (document : Document) : Decidable document.NamedApart :=
  decidable_of_iff
    (document.questionNames.Nodup ∧ ∀ component ∈ document.components, component.optionNames.Nodup)
    ⟨fun h => ⟨h.1, h.2⟩, fun h => ⟨h.questions, h.options⟩⟩

section Last

variable {α β : Type} {f : α → Option β} {values : List α} {index : Nat} {value : α} {result : β}

theorem nodup_filterMap_iff : (values.filterMap f).Nodup ↔
    ∀ (first second : Nat) value other result, values[first]? = some value → values[second]? = some other →
      f value = some result → f other = some result → first = second := by
  rw [List.Nodup, List.pairwise_filterMap, List.pairwise_iff_getElem]
  constructor
  · intro h first second value other result hfirst hsecond hvalue hother
    obtain ⟨hlt, rfl⟩ := List.getElem?_eq_some_iff.mp hfirst
    obtain ⟨hlt', rfl⟩ := List.getElem?_eq_some_iff.mp hsecond
    rcases Nat.lt_trichotomy first second with hbefore | hsame | hafter
    · exact absurd rfl (h first second hlt hlt' hbefore result hvalue result hother)
    · exact hsame
    · exact absurd rfl (h second first hlt' hlt hafter result hother result hvalue)
  · rintro h first second hlt hlt' hbefore result hvalue _ hother rfl
    have hsame := h first second _ _ result (List.getElem?_eq_getElem hlt) (List.getElem?_eq_getElem hlt') hvalue hother
    exact Nat.ne_of_lt hbefore hsame

theorem exists_lastSome? (hvalue : values[index]? = some value) (hresult : f value = some result) :
    ∃ found, lastSome? f values = some found := by
  refine Option.isSome_iff_exists.mp (List.findSome?_isSome_iff.mpr ⟨(value, index), ?_, ?_⟩)
  · exact List.mem_reverse.mpr (List.mem_zipIdx_iff_getElem?.mpr hvalue)
  · rw [Option.isSome_map, hresult]
    rfl

/-- The only value with a result is the last one. -/
theorem lastSome?_of_unique (hvalue : values[index]? = some value) (hresult : f value = some result)
    (hunique : ∀ (number : Nat) other found, values[number]? = some other → f other = some found → number = index) :
    lastSome? f values = some (index, result) := by
  obtain ⟨⟨number, found⟩, hlast⟩ := exists_lastSome? hvalue hresult
  obtain ⟨other, hother, hfound⟩ := exists_of_lastSome? hlast
  obtain rfl := hunique number other found hother hfound
  cases hvalue.symm.trans hother
  cases hresult.symm.trans hfound
  exact hlast

end Last

namespace Table

variable {table later : Table} {scope members : ScopeId} {name : String} {kind : ScopeId → SymbolKind} {node : Place}
  {position : Position} {q : Question}

theorem Means.unique {path : List String} {place other : Place} (h : table.Means path place)
    (hother : table.Means path other) : place = other := by
  obtain ⟨id, symbol, hpath, hsymbol, rfl⟩ := h
  obtain ⟨id', symbol', hpath', hsymbol', rfl⟩ := hother
  cases hpath.symm.trans hpath'
  cases hsymbol.symm.trans hsymbol'
  rfl

/-- Something is added to a scope that there was, with a new scope for its members. -/
theorem defineManaged_spec (table : Table) (kind : ScopeId → SymbolKind) (name : String) (node : Place)
    (hscope : scope < table.scopes.size) (position : Position) :
    let later := (table.defineManaged kind name node scope position).2
    Grows (some scope) table later ∧ later.scopes.size = table.scopes.size + 1 ∧
      later.symbols[table.symbols.size]? = some ⟨name, kind table.scopes.size, node, scope, position⟩ ∧
      ∀ other, later.known? scope other =
        if other = name then some table.symbols.size else table.known? scope other := by
  have hadd := Grows.addScope table (.members table.symbols.size) scope
  have hlt := Nat.lt_of_lt_of_le hscope hadd.size
  let symbol : Symbol := ⟨name, kind table.scopes.size, node, scope, position⟩
  have hdefine := Grows.define (table.addScope (.members table.symbols.size) scope).2 symbol
  refine ⟨(hadd.of_none (some scope)).trans hdefine, ?_, Array.getElem?_push_size, fun other => ?_⟩
  · exact (size_scopes_define _ symbol).trans (size_scopes_addScope table _ scope)
  · rw [← hadd.known scope hscope nofun other]
    exact (Grows.known?_define _ symbol hlt other).trans (by simp [symbol])

/-- The scope of the members of a question knows the last option of every name. -/
def Stocks (table : Table) (members : ScopeId) (place : Place) (offset : Nat) (options : List AnswerOption) : Prop :=
  ∀ name number option, lastSome? (AnswerOption.option? name) options = some (number, option) →
    ∃ id symbol, table.known? members name = some id ∧ table.symbols[id]? = some symbol ∧
      symbol.node = (offset + number) :: place

variable {place : Place} {offset : Nat} {done : List AnswerOption}

theorem Stocks.of_grows {touched : Option ScopeId} {options : List AnswerOption}
    (h : table.Stocks members place offset options) (hgrows : Grows touched table later)
    (hlt : members < table.scopes.size) (hne : some members ≠ touched) :
    later.Stocks members place offset options := by
  intro name number option hlast
  obtain ⟨id, symbol, hknown, hsymbol, hnode⟩ := h name number option hlast
  exact ⟨id, symbol, (hgrows.known members hlt hne name).trans hknown, hgrows.symbols hsymbol, hnode⟩

theorem defineOption_eq (members : ScopeId) (place : Place) (table : Table) (number : Nat) {tree : Outline}
    {option : AnswerOption} (htree : tree.node = .row option ∨ tree.node = .column option) :
    ∃ kind, defineOption members place table (tree, number) =
      match option.name? with
      | some name =>
        (table.defineManaged kind name (number :: place) members option.span.first.position).2
      | none => table := by
  rcases htree with htree | htree
  · exact ⟨.row, by cases hname : option.name? <;> simp only [defineOption, htree, hname]⟩
  · exact ⟨.column, by cases hname : option.name? <;> simp only [defineOption, htree, hname]⟩

/-- The option step. -/
theorem stocks_defineOption {tree : Outline} {option : AnswerOption} (hlt : members < table.scopes.size)
    (htree : tree.node = .row option ∨ tree.node = .column option) (h : table.Stocks members place offset done) :
    Grows (some members) table (defineOption members place table (tree, offset + done.length)) ∧
      (defineOption members place table (tree, offset + done.length)).Stocks members place offset
        (done ++ [option]) := by
  obtain ⟨kind, hdefine⟩ := defineOption_eq members place table (offset + done.length) htree
  rw [hdefine]
  cases hname : option.name? with
  | none =>
      refine ⟨.refl _ _, fun name number found hlast => h name number found ?_⟩
      have hother : option.option? name = none := by simp [AnswerOption.option?, hname]
      rwa [lastSome?_concat, hother] at hlast
  | some known =>
      obtain ⟨hgrows, -, hsymbol, hknown⟩ := defineManaged_spec table kind known ((offset + done.length) :: place) hlt
        option.span.first.position
      refine ⟨hgrows, fun name number found hlast => ?_⟩
      rw [lastSome?_concat] at hlast
      by_cases hsame : name = known
      · have hsome : option.option? name = some option := if_pos (hname.trans (congrArg some hsame.symm))
        rw [hsome] at hlast
        cases hlast
        exact ⟨_, _, (hknown name).trans (if_pos hsame), hsymbol, rfl⟩
      · have hother : option.option? name = none :=
          if_neg fun heq => hsame (Option.some.inj (heq.symm.trans hname))
        rw [hother] at hlast
        obtain ⟨id, symbol, hid, hfound, hnode⟩ := h name number found hlast
        exact ⟨id, symbol, ((hknown name).trans (if_neg hsame)).trans hid, hgrows.symbols hfound, hnode⟩

theorem stocks_foldl_defineOption (make : AnswerOption → Outline)
    (hmake : ∀ option, (make option).node = .row option ∨ (make option).node = .column option)
    (hlt : members < table.scopes.size) (h : table.Stocks members place offset done) (options : List AnswerOption) :
    let later := ((options.map make).zipIdx (offset + done.length)).foldl (defineOption members place) table
    Grows (some members) table later ∧ later.Stocks members place offset (done ++ options) := by
  induction options generalizing table done with
  | nil => exact ⟨.refl _ _, by rwa [List.append_nil]⟩
  | cons option options ih =>
      obtain ⟨hgrows, hstocks⟩ := stocks_defineOption hlt (hmake option) h
      obtain ⟨hrest, hall⟩ := ih (Nat.lt_of_lt_of_le hlt hgrows.size) hstocks
      rw [List.length_append, List.length_singleton, ← Nat.add_assoc] at hrest hall
      rw [List.append_assoc] at hall
      exact ⟨hgrows.trans hrest, hall⟩

/-- Texts and attributes are no options. -/
theorem foldl_defineOption_eq {trees : List Outline} {number : Nat}
    (h : ∀ tree ∈ trees, ∀ members place table number, defineOption members place table (tree, number) = table) :
    (trees.zipIdx number).foldl (defineOption members place) table = table := by
  induction trees generalizing number with
  | nil => rfl
  | cons tree trees ih =>
      rw [List.forall_mem_cons] at h
      rw [List.zipIdx_cons, List.foldl_cons, h.1, ih h.2]

theorem defineOption_ofText (part : TextPart) (members : ScopeId) (place : Place) (table : Table) (number : Nat) :
    defineOption members place table (.ofText part, number) = table := by
  cases part <;> rfl

/-- Before its options a question has texts and attributes. -/
theorem exists_children (q : Question) : ∃ parts : List Outline,
    (∀ tree ∈ parts, ∀ members place table number, defineOption members place table (tree, number) = table) ∧
      parts.length = q.offset ∧
      (Outline.ofComponent (.question q)).children = parts ++ q.rows.map .ofRow ++ q.columns.map .ofColumn := by
  refine ⟨q.texts.map .ofText ++ q.attributes.map .ofAttribute, ?_, ?_, rfl⟩
  · refine List.forall_mem_append.mpr ⟨List.forall_mem_map.mpr fun part _ => defineOption_ofText part, ?_⟩
    exact List.forall_mem_map.mpr fun _ _ _ _ _ _ => rfl
  · rw [List.length_append, List.length_map, List.length_map, Question.offset]

theorem stocks_children (hlt : members < table.scopes.size) (place : Place) (q : Question) :
    let later := ((Outline.ofComponent (.question q)).children.zipIdx).foldl (defineOption members place) table
    Grows (some members) table later ∧ later.Stocks members place q.offset q.options := by
  obtain ⟨parts, hplain, hlength, hchildren⟩ := exists_children q
  have hnone : table.Stocks members place q.offset [] := nofun
  obtain ⟨hrows, hstocks⟩ := stocks_foldl_defineOption .ofRow (fun _ => .inl rfl) hlt hnone q.rows
  obtain ⟨hcolumns, hall⟩ := stocks_foldl_defineOption .ofColumn (fun _ => .inr rfl)
    (Nat.lt_of_lt_of_le hlt hrows.size) hstocks q.columns
  rw [hchildren, List.zipIdx_append, List.zipIdx_append, List.foldl_append, List.foldl_append,
    foldl_defineOption_eq hplain, List.length_append, List.length_map, hlength, Nat.zero_add, Nat.zero_add]
  exact ⟨hrows.trans hcolumns, hall⟩

/-- The survey knows a question by the name, and the members of the question its options. -/
def Keeps (table : Table) (name : String) (index : Nat) (q : Question) : Prop :=
  ∃ id symbol members, table.known? survey name = some id ∧ table.symbols[id]? = some symbol ∧
    symbol.node = [index] ∧ symbol.kind = .question members ∧ survey < members ∧ members < table.scopes.size ∧
    table.Stocks members [index] q.offset q.options

theorem Keeps.of_grows {touched : Option ScopeId} {index : Nat} (h : table.Keeps name index q)
    (hgrows : Grows touched table later) (hknown : later.known? survey name = table.known? survey name)
    (htouched : ∀ scope, touched = some scope → scope = survey) : later.Keeps name index q := by
  obtain ⟨id, symbol, members, hid, hsymbol, hnode, hkind, hpos, hlt, hstocks⟩ := h
  refine ⟨id, symbol, members, hknown.trans hid, hgrows.symbols hsymbol, hnode, hkind, hpos,
    Nat.lt_of_lt_of_le hlt hgrows.size, hstocks.of_grows hgrows hlt fun hsame => ?_⟩
  exact Nat.ne_of_gt hpos (htouched members hsame.symm)

/-- The last questions of all names are kept. -/
structure Stocked (table : Table) (components : List Component) : Prop where
  survey : survey < table.scopes.size
  keeps : ∀ {name index q}, lastSome? (Component.question? name) components = some (index, q) →
    table.Keeps name index q

theorem Stocked.concat {components : List Component} {component : Component} (h : table.Stocked components)
    (hnone : ∀ name, component.question? name = none) : table.Stocked (components ++ [component]) := by
  refine ⟨h.survey, fun {name index q} hlast => h.keeps ?_⟩
  rwa [lastSome?_concat, hnone] at hlast

/-- The question step. -/
theorem stocked_defineQuestion {components : List Component} (h : table.Stocked components) (component : Component) :
    (table.defineQuestion (.ofComponent component, components.length)).Stocked (components ++ [component]) := by
  cases component with
  | heading heading => exact h.concat fun _ => rfl
  | interlude interlude => exact h.concat fun _ => rfl
  | question q =>
      cases hname : q.name? with
      | none =>
          simp only [defineQuestion, Outline.ofComponent, Outline.node, hname]
          exact h.concat fun name => by rw [Component.question?, hname]; rfl
      | some known =>
          obtain ⟨hgrows, hsize, hsymbol, hknown⟩ := defineManaged_spec table .question known [components.length]
            h.survey q.span.first.position
          have hmembers : table.scopes.size <
              (table.defineManaged .question known [components.length] survey q.span.first.position).2.scopes.size := by
            rw [hsize]
            exact Nat.lt_succ_self _
          obtain ⟨hrun, hstocks⟩ := stocks_children hmembers [components.length] q
          have hsurvey := Nat.lt_of_lt_of_le h.survey hgrows.size
          have hall : Grows (some survey) table _ := hgrows.comp hrun fun scope hlt hne =>
            ⟨hne, fun hsame => Nat.ne_of_lt hlt (Option.some.inj hsame)⟩
          have hsame (name : String) := hrun.known survey hsurvey
            (fun hsame => Nat.ne_of_lt h.survey (Option.some.inj hsame)) name
          simp only [defineQuestion, Outline.ofComponent, Outline.node, hname]
          refine ⟨Nat.lt_of_lt_of_le h.survey hall.size, fun {name index found} hlast => ?_⟩
          rw [lastSome?_concat] at hlast
          by_cases heq : name = known
          · have hsome : Component.question? name (.question q) = some q :=
              if_pos (hname.trans (congrArg some heq.symm))
            rw [hsome] at hlast
            cases hlast
            exact ⟨_, _, table.scopes.size, (hsame name).trans ((hknown name).trans (if_pos heq)), hrun.symbols hsymbol,
              rfl, rfl, h.survey, Nat.lt_of_lt_of_le hmembers hrun.size, hstocks⟩
          · have hother : Component.question? name (.question q) = none :=
              if_neg fun hsame => heq (Option.some.inj (hsame.symm.trans hname))
            rw [hother] at hlast
            refine (h.keeps hlast).of_grows hall ((hsame name).trans ((hknown name).trans (if_neg heq))) ?_
            exact fun scope hscope => (Option.some.inj hscope).symm

theorem stocked_foldl_defineQuestion {before : List Component} (h : table.Stocked before)
    (components : List Component) :
    (((components.map Outline.ofComponent).zipIdx before.length).foldl defineQuestion table).Stocked
      (before ++ components) := by
  induction components generalizing table before with
  | nil => rwa [List.append_nil]
  | cons component components ih =>
      have hrest := ih (stocked_defineQuestion h component)
      rw [List.length_append, List.append_assoc] at hrest
      exact hrest

theorem stocked_empty : empty.Stocked [] := ⟨Nat.zero_lt_one, nofun⟩

theorem stocked_ofQuestions (document : Document) : (ofQuestions document).Stocked document.components :=
  stocked_foldl_defineQuestion stocked_empty document.components

/-- The walk over the document adds nothing to what the survey knows. -/
theorem stocked_of_ofDocument {document : Document} (h : ofDocument document = .ok table) :
    table.Stocked document.components := by
  have hstocked := stocked_ofQuestions document
  have hgrows := (built_of_ofDocument h).surveyed.grows
  refine ⟨Nat.lt_of_lt_of_le hstocked.survey hgrows.size, fun {name index q} hlast => ?_⟩
  exact (hstocked.keeps hlast).of_grows hgrows (hgrows.known survey hstocked.survey nofun name) nofun

theorem resolveMember_of_known {id found : SymbolId} {symbol : Symbol} (hsymbol : table.symbols[id]? = some symbol)
    (hmembers : symbol.kind.members? = some members) (hknown : table.known? members name = some found) :
    table.resolveMember id name = some found := by
  have hscope : table.members? id = some members := by
    rw [members?, hsymbol]
    exact hmembers
  rw [resolveMember, hscope]
  exact hknown

theorem Keeps.means {index : Nat} (h : table.Keeps name index q) : table.Means [name] [index] := by
  obtain ⟨id, symbol, members, hknown, hsymbol, hnode, -⟩ := h
  refine ⟨id, symbol, ?_, hsymbol, hnode⟩
  rw [resolvePath, resolve_eq_of_known hknown]
  rfl

theorem Keeps.means_option {index number : Nat} {member : String} {option : AnswerOption} (h : table.Keeps name index q)
    (hlast : lastSome? (AnswerOption.option? member) q.options = some (number, option)) :
    table.Means [name, member] [q.offset + number, index] := by
  obtain ⟨id, symbol, members, hknown, hsymbol, -, hkind, -, -, hstocks⟩ := h
  obtain ⟨found, option, hfound, hoption, hnode⟩ := hstocks member number option hlast
  refine ⟨found, option, ?_, hoption, hnode⟩
  rw [resolvePath, resolve_eq_of_known hknown]
  have hmember := resolveMember_of_known hsymbol (by rw [hkind]; rfl) hfound
  exact (Option.bind_some _ _).trans (by rw [List.foldlM_cons, hmember]; rfl)

end Table

namespace Document

variable {document : Document} {table : Table}

theorem exists_question {component : Component} {name : String} (h : component.questionName? = some name) :
    ∃ q, component = .question q ∧ q.name? = some name := by
  cases component with
  | question q => exact ⟨q, rfl, h⟩
  | heading => cases h
  | interlude => cases h

theorem questionName?_of_question? {component : Component} {name : String} {q : Question}
    (h : component.question? name = some q) : component.questionName? = some name := by
  cases component with
  | question other => exact (Option.ite_none_right_eq_some.mp h).1
  | heading => cases h
  | interlude => cases h

theorem exists_ownerName {known : List String} {attributes : List Attribute}
    (h : Attribute.AllLegal true known attributes) : ∃ name, Attribute.ownerName? attributes = some name := by
  have hone := h.named rfl
  rw [List.countP_eq_length_filter] at hone
  obtain ⟨only, honly⟩ := List.length_eq_one_iff.mp hone
  exact ⟨only.name, by rw [Attribute.ownerName?, honly]⟩

/-- What is found by a name is not something else as well. -/
theorem KeptIn.namedApart (h : document.KeptIn table) : document.NamedApart := by
  constructor
  case questions =>
    refine nodup_filterMap_iff.mpr fun first second component other name hfirst hsecond hname hother => ?_
    obtain ⟨q, rfl, hq⟩ := exists_question hname
    obtain ⟨q', rfl, hq'⟩ := exists_question hother
    obtain ⟨_, hsame, hmeans⟩ := h.questions first q hfirst
    cases hq.symm.trans hsame
    obtain ⟨_, hsame, hmeans'⟩ := h.questions second q' hsecond
    cases hq'.symm.trans hsame
    exact (List.cons.inj (hmeans.unique hmeans')).1
  case options =>
    intro component hcomponent
    obtain ⟨index, hindex⟩ := List.mem_iff_getElem?.mp hcomponent
    cases component with
    | heading heading => exact List.nodup_nil
    | interlude interlude => exact List.nodup_nil
    | question q =>
        refine nodup_filterMap_iff.mpr fun first second option other member hfirst hsecond hname hother => ?_
        obtain ⟨name, _, hq, hsame, hmeans⟩ := h.options index q hindex first option hfirst
        cases hname.symm.trans hsame
        obtain ⟨_, _, hq', hsame, hmeans'⟩ := h.options index q hindex second other hsecond
        cases hq.symm.trans hq'
        cases hother.symm.trans hsame
        exact Nat.add_left_cancel (List.cons.inj (hmeans.unique hmeans')).1

theorem lastIn_of_stocked (h : table.Stocked document.components) : document.LastIn table := by
  intro name index q hlast
  have hkeeps := h.keeps hlast
  exact ⟨hkeeps.means, fun member number option => hkeeps.means_option⟩

/-- The last one of a name is the only one. -/
theorem NamedApart.keptIn (h : document.NamedApart) (hlegal : document.Legal) (hlast : document.LastIn table) :
    document.KeptIn table := by
  have hlastOf (index : Nat) (q : Question) (hindex : document.components[index]? = some (.question q)) :
      ∃ name, q.name? = some name ∧ lastSome? (Component.question? name) document.components = some (index, q) := by
    obtain ⟨name, hname⟩ := exists_ownerName (hlegal.components _ (List.mem_of_getElem? hindex)).1.attributes
    refine ⟨name, hname, lastSome?_of_unique hindex (if_pos hname) fun number other found hother hfound => ?_⟩
    have hsame := questionName?_of_question? hfound
    exact nodup_filterMap_iff.mp h.questions number index other (.question q) name hother hindex hsame hname
  refine ⟨fun index q hindex => ?_, fun index q hindex number option hoption => ?_⟩
  · obtain ⟨name, hname, hquestion⟩ := hlastOf index q hindex
    exact ⟨name, hname, (hlast name index q hquestion).1⟩
  · obtain ⟨name, hname, hquestion⟩ := hlastOf index q hindex
    have hq := List.mem_of_getElem? hindex
    obtain ⟨member, hmember⟩ :=
      exists_ownerName ((hlegal.components _ hq).2 option (List.mem_of_getElem? hoption)).attributes
    refine ⟨name, member, hname, hmember, (hlast name index q hquestion).2 member number option ?_⟩
    refine lastSome?_of_unique hoption (if_pos hmember) fun other value found hother hfound => ?_
    have hvalue : value.name? = some member := (Option.ite_none_right_eq_some.mp hfound).1
    exact nodup_filterMap_iff.mp (h.options _ hq) other number value option member hother hoption hvalue hmember

theorem exists_analyze {limits : Limits} {source : String} (h : compile limits source = .ok document) :
    ∃ table, document.analyze = .ok table := by
  unfold compile at h
  cases hparse : Document.parse limits source with
  | error diagnostic =>
      rw [hparse] at h
      cases h
  | ok parsed =>
      rw [hparse] at h
      cases htable : parsed.analyze with
      | error diagnostic =>
          change (parsed.analyze >>= fun _ => pure parsed) = _ at h
          rw [htable] at h
          cases h
      | ok table =>
          change (parsed.analyze >>= fun _ => pure parsed) = _ at h
          rw [htable] at h
          cases h
          exact ⟨table, htable⟩

theorem of_analyze (h : document.analyze = .ok table) : document.Legal ∧ Table.ofDocument document = .ok table := by
  unfold analyze at h
  cases hcheck : document.check with
  | error diagnostic =>
      rw [hcheck] at h
      cases h
  | ok =>
      rw [hcheck] at h
      exact ⟨(check_eq_ok_iff document).mp hcheck, h⟩

/-- In what is compiled the last questions and options of their names are found, so that all are exactly if no two
questions have the same name, nor two options of one question. -/
theorem keptIn_iff_of_compile {limits : Limits} {source : String} (h : compile limits source = .ok document) :
    ∃ table, document.analyze = .ok table ∧ document.LastIn table ∧ (document.KeptIn table ↔ document.NamedApart) := by
  obtain ⟨table, htable⟩ := exists_analyze h
  obtain ⟨hlegal, hbuilt⟩ := of_analyze htable
  have hlast := lastIn_of_stocked (Table.stocked_of_ofDocument hbuilt)
  exact ⟨table, htable, hlast, KeptIn.namedApart, fun hapart => hapart.keptIn hlegal hlast⟩

theorem keptIn_iff_of_compile_rows :
    ∃ document, compile ⟨1, 0⟩ "<<q @single_choice>>Q[r]A[s]B" = .ok document ∧
      ∃ table, document.analyze = .ok table ∧ document.KeptIn table := by
  have hapart : ((compile ⟨1, 0⟩ "<<q @single_choice>>Q[r]A[s]B").toOption.any fun document =>
      decide document.NamedApart) = true := by decide +kernel
  cases hcompile : compile ⟨1, 0⟩ "<<q @single_choice>>Q[r]A[s]B" with
  | error diagnostic =>
      rw [hcompile] at hapart
      cases hapart
  | ok document =>
      rw [hcompile] at hapart
      obtain ⟨table, htable, -, hkept⟩ := keptIn_iff_of_compile hcompile
      exact ⟨document, rfl, table, htable, hkept.mpr (of_decide_eq_true hapart)⟩

/-- A question that another one of its name replaces. -/
theorem exists_not_keptIn :
    ∃ document table, compile .standard "<< q1 @text >> A << q1 @number >> B" = .ok document ∧
      document.analyze = .ok table ∧ ¬ document.KeptIn table := by
  have hnames : (compile .standard "<< q1 @text >> A << q1 @number >> B").toOption.map questionNames =
      some ["q1", "q1"] := by decide +kernel
  cases hcompile : compile .standard "<< q1 @text >> A << q1 @number >> B" with
  | error diagnostic =>
      rw [hcompile] at hnames
      cases hnames
  | ok document =>
      rw [hcompile] at hnames
      obtain ⟨table, htable⟩ := exists_analyze hcompile
      refine ⟨document, table, rfl, htable, fun hkept => ?_⟩
      have hapart := hkept.namedApart.questions
      rw [show document.questionNames = _ from Option.some.inj hnames] at hapart
      exact absurd hapart (by decide)

end Document

end Questionnaire
