import Mathlib.Data.List.Infix
import Questionnaire.Proofs.Symbols.ReadOnly
import Questionnaire.Proofs.Walk.Each

/-! What names mean, told from the document alone. Statements stand in the interlude or the block that directly contains
them. A name means what it was last declared as there, or else what it means around that, and past the interlude it
means the last question that has it. -/

namespace Questionnaire

/-- The last of the values that has a result, by its index. -/
def lastSome? {α β : Type} (f : α → Option β) (values : List α) : Option (Nat × β) :=
  values.zipIdx.reverse.findSome? fun entry => (f entry.1).map fun result => (entry.2, result)

theorem lastSome?_concat {α β : Type} (f : α → Option β) (values : List α) (value : α) :
    lastSome? f (values ++ [value]) =
      ((f value).map fun result => (values.length, result)).or (lastSome? f values) := by
  rw [lastSome?, List.zipIdx_append, List.reverse_append, List.findSome?_append]
  simp [lastSome?]

theorem exists_of_lastSome? {α β : Type} {f : α → Option β} {values : List α} {index : Nat} {result : β}
    (h : lastSome? f values = some (index, result)) : ∃ value, values[index]? = some value ∧ f value = some result := by
  obtain ⟨⟨value, found⟩, hmem, hvalue⟩ := List.exists_of_findSome?_eq_some h
  obtain ⟨result, hresult, heq⟩ := Option.map_eq_some_iff.mp hvalue
  cases heq
  exact ⟨value, List.mem_zipIdx_iff_getElem?.mp (List.mem_reverse.mp hmem), hresult⟩

/-- The declaration of the name that the statement is. -/
def Statement.declares? (name : String) (statement : Statement) : Option (Token × SymbolKind) :=
  statement.declared?.filter fun declared => declared.1.text == name

/-- The block of a rule or an action, and its index among the children. -/
def Statement.block? : Statement → Option (Nat × Block)
  | .rule _ conditions block _ => some (conditions.length, block)
  | .action _ block _ => some (0, block)
  | _ => none

/-- The question, if it has the name. -/
def Component.question? (name : String) : Component → Option Question
  | .question q => if q.name? = some name then some q else none
  | .heading _ => none
  | .interlude _ => none

/-- What gives a name its meaning: a statement of an interlude or a block, by its index there, or a component. -/
inductive Meaning where
  | declared (site : Place) (index : Nat) (name : Token) (kind : SymbolKind)
  | question (index : Nat) (question : Question)

namespace Document

/-- The statements of the interlude or the block at a place. A block is a child of a rule or an action. -/
def statementsAt? (document : Document) : Place → Option (List Statement)
  | [] => none
  | [index] =>
    match document.components[index]? with
    | some (.interlude i) => some i.statements
    | _ => none
  | child :: index :: site => do
    let statements ← document.statementsAt? site
    let (position, block) ← (← statements[index]?).block?
    if position = child then some block.statements else none

/-- The last declaration of the name made directly in the interlude or the block. -/
def declaredAt? (document : Document) (name : String) (site : Place) : Option Meaning :=
  (document.statementsAt? site).bind fun statements =>
    (lastSome? (Statement.declares? name) statements).map fun found => .declared site found.1 found.2.1 found.2.2

/-- The meaning of a name in the interlude or the block, or at no place in the survey itself. -/
def meaning? (document : Document) (name : String) : Place → Option Meaning
  | [] => (lastSome? (Component.question? name) document.components).map fun found => .question found.1 found.2
  | [index] => (document.declaredAt? name [index]).or (document.meaning? name [])
  | child :: index :: site => (document.declaredAt? name (child :: index :: site)).or (document.meaning? name site)

/-- What a site declares is given its meaning by the survey nowhere. -/
theorem isManaged_of_declaredAt? {document : Document} {name : String} {site place : Place} {index : Nat}
    {token : Token} {kind : SymbolKind} (h : document.declaredAt? name site = some (.declared place index token kind)) :
    kind.isManaged = false := by
  obtain ⟨statements, -, hfound⟩ := Option.bind_eq_some_iff.mp h
  obtain ⟨⟨found, declared⟩, hlast, heq⟩ := Option.map_eq_some_iff.mp hfound
  cases heq
  obtain ⟨statement, -, hdeclares⟩ := exists_of_lastSome? hlast
  exact Statement.isManaged_of_declared? (Option.filter_eq_some_iff.mp hdeclares).1

theorem meaning?_eq {document : Document} {name : String} {site : Place} (h : site ≠ []) :
    document.meaning? name site = (document.declaredAt? name site).or (document.meaning? name (site.drop 2)) := by
  match site with
  | [] => exact absurd rfl h
  | [_] => rfl
  | _ :: _ :: _ => rfl

end Document

/-- The statements that stand in an interlude or a block. -/
def Node.statements? : Node → Option (List Statement)
  | .interlude i => some i.statements
  | .block b => some b.statements
  | _ => none

theorem outer_statements?_eq_none : Outer fun node => node.statements? = none where
  text _ := rfl
  simple _ := rfl
  expression _ := rfl
  question _ := rfl
  heading _ := rfl
  row _ := rfl
  column _ := rfl
  attr _ := rfl

open Outline

namespace Statement

/-- What stands below a statement besides its block. -/
def parts : Statement → List Outline
  | .simple statement => [ofExpr statement.expression]
  | .rule _ conditions _ _ => conditions.map ofSimple
  | .action _ _ _ => []
  | .conditionSet _ conditions _ => conditions.map ofSimple
  | .declaration _ value _ => (value.map ofExpr).toList
  | .command _ arguments _ => arguments.map ofExpr
  | .evaluate target _ => [ofName target]
  | .perform target _ => [ofName target]

theorem each_parts {holds : Node → Prop} (h : Plain holds) (statement : Statement) :
    ∀ part ∈ statement.parts, part.Each holds := by
  cases statement with
  | simple statement => exact List.forall_mem_singleton.mpr (h.ofExpr _)
  | rule name conditions block span => exact h.ofSimples conditions
  | action name block span => exact List.forall_mem_nil _
  | conditionSet name conditions span => exact h.ofSimples conditions
  | declaration name value span =>
      cases value with
      | none => exact List.forall_mem_nil _
      | some value => exact List.forall_mem_singleton.mpr (h.ofExpr value)
  | command name arguments span => exact List.forall_mem_map.mpr fun argument _ => h.ofExpr argument
  | evaluate target span => exact List.forall_mem_singleton.mpr (h.ofName target)
  | perform target span => exact List.forall_mem_singleton.mpr (h.ofName target)

theorem ofStatement_of_block {statement : Statement} {child : Nat} {block : Block}
    (h : statement.block? = some (child, block)) : child = statement.parts.length ∧
      ofStatement statement = .mk (.statement statement) (statement.parts ++ [ofBlock block]) := by
  cases statement with
  | rule name conditions action span =>
      cases h
      exact ⟨(List.length_map _).symm, rfl⟩
  | action name action span =>
      cases h
      exact ⟨rfl, rfl⟩
  | _ => cases h

theorem ofStatement_of_none {statement : Statement} (h : statement.block? = none) :
    ofStatement statement = .mk (.statement statement) statement.parts := by
  cases statement with
  | rule => cases h
  | action => cases h
  | _ => rfl

variable {statement : Statement} {statements : List Statement} {place other : Place} {node : Node}

/-- Below a statement other statements stand in its block alone. -/
theorem exists_block_of_mem_visits (h : (other, node) ∈ (ofStatement statement).visits place)
    (hnode : node.statements? = some statements) :
    ∃ child block, statement.block? = some (child, block) ∧
      (other, node) ∈ (ofBlock block).visits (child :: place) := by
  have hparts {index : Nat} (h : (other, node) ∈ visitsFrom place index statement.parts) : False := by
    rw [of_mem_visitsFrom (statement.each_parts outer_statements?_eq_none.toPlain) h] at hnode
    cases hnode
  have hroot : (other, node) ≠ (place, .statement statement) := by
    rintro ⟨⟩
    cases hnode
  cases hblock : statement.block? with
  | none =>
      rw [ofStatement_of_none hblock, visits, List.mem_cons] at h
      exact (hparts (h.resolve_left hroot)).elim
  | some found =>
      obtain ⟨child, block⟩ := found
      obtain ⟨hchild, houtline⟩ := ofStatement_of_block hblock
      rw [houtline, visits, List.mem_cons, visitsFrom_append, List.mem_append] at h
      refine ⟨child, block, rfl, ?_⟩
      have hlast := (h.resolve_left hroot).resolve_left hparts
      rw [visitsFrom, visitsFrom, List.append_nil, Nat.zero_add, ← hchild] at hlast
      exact hlast

end Statement

namespace Document

variable {document : Document} {node : Node} {statements : List Statement} {place : Place}

theorem statementsAt?_block {site : Place} {statements : List Statement} {index child : Nat} {block : Block}
    (hsite : document.statementsAt? site = some statements)
    (hblock : statements[index]?.bind Statement.block? = some (child, block)) :
    document.statementsAt? (child :: index :: site) = some block.statements := by
  obtain ⟨statement, hstatement, hblock⟩ := Option.bind_eq_some_iff.mp hblock
  rw [statementsAt?, hsite, Option.bind_eq_bind, Option.bind_some, hstatement, Option.bind_eq_bind, Option.bind_some,
    hblock, Option.bind_eq_bind, Option.bind_some]
  exact if_pos rfl

mutual

theorem statementsAt?_of_statement {site : Place} {done rest : List Statement} (statement : Statement)
    (hsite : document.statementsAt? site = some (done ++ statement :: rest))
    (h : (place, node) ∈ (ofStatement statement).visits (done.length :: site))
    (hnode : node.statements? = some statements) : document.statementsAt? place = some statements := by
  obtain ⟨child, block, hblock, hvisit⟩ := Statement.exists_block_of_mem_visits h hnode
  have hchild : document.statementsAt? (child :: done.length :: site) = some block.statements :=
    statementsAt?_block hsite (by simpa using hblock)
  cases statement with
  | rule name conditions action span =>
      obtain ⟨rfl, rfl⟩ := Prod.mk.inj (Option.some.inj hblock)
      exact statementsAt?_of_block action hchild hvisit hnode
  | action name action span =>
      obtain ⟨rfl, rfl⟩ := Prod.mk.inj (Option.some.inj hblock)
      exact statementsAt?_of_block action hchild hvisit hnode
  | _ => cases hblock

theorem statementsAt?_of_block {site : Place} (block : Block)
    (hsite : document.statementsAt? site = some block.statements) (h : (place, node) ∈ (ofBlock block).visits site)
    (hnode : node.statements? = some statements) : document.statementsAt? place = some statements := by
  cases block with
  | mk inner span =>
      rw [ofBlock, Outline.visits, List.mem_cons] at h
      rcases h with h | h
      · cases h
        exact hsite.trans hnode
      · exact statementsAt?_of_statements [] inner hsite h hnode

theorem statementsAt?_of_statements {site : Place} (done inner : List Statement)
    (hsite : document.statementsAt? site = some (done ++ inner))
    (h : (place, node) ∈ visitsFrom site done.length (ofStatements inner))
    (hnode : node.statements? = some statements) : document.statementsAt? place = some statements := by
  cases inner with
  | nil => cases h
  | cons statement inner =>
      rw [ofStatements, visitsFrom, List.mem_append] at h
      rcases h with h | h
      · exact statementsAt?_of_statement statement hsite h hnode
      · have hsplit : done ++ statement :: inner = (done ++ [statement]) ++ inner := by simp
        have hlength : done.length + 1 = (done ++ [statement]).length := by simp
        rw [hsplit] at hsite
        rw [hlength] at h
        exact statementsAt?_of_statements (done ++ [statement]) inner hsite h hnode

end

theorem statementsAt?_of_components {before components : List Component}
    (hall : document.components = before ++ components)
    (h : (place, node) ∈ visitsFrom [] before.length (components.map ofComponent))
    (hnode : node.statements? = some statements) : document.statementsAt? place = some statements := by
  induction components generalizing before with
  | nil => cases h
  | cons component components ih =>
      rw [List.map_cons, visitsFrom, List.mem_append] at h
      rcases h with h | h
      · by_cases hinterlude : ∃ i, component = .interlude i
        · obtain ⟨i, rfl⟩ := hinterlude
          have hsite : document.statementsAt? [before.length] = some i.statements := by
            rw [statementsAt?, hall, List.getElem?_append_right (Nat.le_refl _), Nat.sub_self]
            rfl
          rw [ofComponent, Outline.visits, List.mem_cons, ← ofStatements_eq_map] at h
          rcases h with h | h
          · cases h
            exact hsite.trans hnode
          · exact statementsAt?_of_statements [] i.statements hsite h hnode
        · have hnone := outer_statements?_eq_none.ofComponent fun i hsame => hinterlude ⟨i, hsame⟩
          rw [hnone.of_mem_visits h] at hnode
          cases hnode
      · have hlength : before.length + 1 = (before ++ [component]).length := by simp
        rw [hlength] at h
        exact ih (hall.trans (List.append_cons _ _ _)) h

/-- All interludes and blocks that a walk comes to are sites. -/
theorem statementsAt?_of_mem_visits (h : (place, node) ∈ document.visits) (hnode : node.statements? = some statements) :
    document.statementsAt? place = some statements :=
  statementsAt?_of_components (List.nil_append _).symm h hnode

end Document

end Questionnaire
