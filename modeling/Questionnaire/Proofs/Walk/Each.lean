import Questionnaire.Proofs.Walk.Subtrees

/-! What holds of each node of an outline. The kinds of nodes below a node are settled by what it is: expressions below
an expression, statements and blocks below a statement, and simple statements at most below a text or an attribute. -/

namespace Questionnaire

/-- Whatever is said of nodes holds of all nodes of the tree. -/
def Outline.Each (holds : Node → Prop) (tree : Outline) : Prop := ∀ inner ∈ tree.subtrees, holds inner.node

variable {holds : Node → Prop}

namespace Outline

theorem each_mk {node : Node} {children : List Outline} :
    (mk node children).Each holds ↔ holds node ∧ ∀ child ∈ children, child.Each holds := by
  simp only [Each, subtrees_mk, List.forall_mem_cons, List.forall_mem_flatMap]
  rfl

theorem Each.of_mem_visits {tree : Outline} {place other : Place} {node : Node} (h : tree.Each holds)
    (hvisit : (other, node) ∈ tree.visits place) : holds node := by
  have hnode : node ∈ tree.subtrees.map Outline.node := by
    rw [← map_snd_visits place]
    exact List.mem_map_of_mem hvisit
  obtain ⟨inner, hinner, rfl⟩ := List.mem_map.mp hnode
  exact h inner hinner

theorem of_mem_visitsFrom {trees : List Outline} {place other : Place} {index : Nat} {node : Node}
    (h : ∀ tree ∈ trees, tree.Each holds) (hvisit : (other, node) ∈ visitsFrom place index trees) : holds node := by
  induction trees generalizing index with
  | nil => cases hvisit
  | cons tree trees ih =>
      rw [List.forall_mem_cons] at h
      rw [visitsFrom, List.mem_append] at hvisit
      rcases hvisit with hvisit | hvisit
      · exact h.1.of_mem_visits hvisit
      · exact ih h.2 hvisit

theorem visitsFrom_append (place : Place) (index : Nat) (left right : List Outline) :
    visitsFrom place index (left ++ right) =
      visitsFrom place index left ++ visitsFrom place (index + left.length) right := by
  induction left generalizing index with
  | nil => rfl
  | cons tree left ih =>
      rw [List.cons_append, visitsFrom, visitsFrom, ih, List.append_assoc, List.length_cons, Nat.add_comm left.length,
        Nat.add_assoc]

end Outline

open Outline (each_mk)

/-- What is said of nodes holds of texts and of expressions, which may be statements by themselves. -/
structure Plain (holds : Node → Prop) : Prop where
  text (token : Token) : holds (.text token)
  simple (statement : SimpleStatement) : holds (.statement (.simple statement))
  expression (expr : Expr) : holds (.expression expr)

namespace Plain

theorem ofExpr (h : Plain holds) (expr : Expr) : (Outline.ofExpr expr).Each holds := by
  intro tree htree
  obtain ⟨inner, rfl⟩ := Outline.exists_of_mem_subtrees expr htree
  rw [Outline.node_ofExpr]
  exact h.expression inner

theorem ofName (h : Plain holds) (token : Token) : (Outline.ofName token).Each holds :=
  h.ofExpr (.symbol token (.single token))

theorem ofSimple (h : Plain holds) (statement : SimpleStatement) : (Outline.ofSimple statement).Each holds :=
  each_mk.mpr ⟨h.simple statement, List.forall_mem_singleton.mpr (h.ofExpr _)⟩

theorem ofSimples (h : Plain holds) (statements : List SimpleStatement) :
    ∀ child ∈ statements.map Outline.ofSimple, child.Each holds :=
  List.forall_mem_map.mpr fun statement _ => h.ofSimple statement

theorem ofText (h : Plain holds) (part : TextPart) : (Outline.ofText part).Each holds := by
  cases part with
  | text token => exact each_mk.mpr ⟨h.text token, List.forall_mem_nil _⟩
  | embedded statement => exact h.ofSimple statement

theorem ofAttribute (h : Plain holds) (a : Attribute) : (Outline.ofAttribute a).Each holds ↔ holds (.attr a) := by
  rw [Outline.ofAttribute, each_mk, and_iff_left]
  split
  · exact List.forall_mem_singleton.mpr (h.ofSimple _)
  · exact List.forall_mem_nil _
  · exact List.forall_mem_nil _

theorem ofOption (h : Plain holds) (node : Node) (option : AnswerOption) :
    (Outline.mk node (option.texts.map Outline.ofText ++ option.attributes.map Outline.ofAttribute)).Each holds ↔
      holds node ∧ ∀ a ∈ option.attributes, holds (.attr a) := by
  have htexts : ∀ part ∈ option.texts, (Outline.ofText part).Each holds := fun part _ => h.ofText part
  simp only [each_mk, List.forall_mem_append, List.forall_mem_map, h.ofAttribute]
  rw [and_iff_right htexts]

theorem ofQuestion (h : Plain holds) (q : Question) :
    (Outline.ofComponent (.question q)).Each holds ↔
      holds (.question q) ∧ (∀ a ∈ q.attributes, holds (.attr a)) ∧
        (∀ row ∈ q.rows, holds (.row row) ∧ ∀ a ∈ row.attributes, holds (.attr a)) ∧
        ∀ column ∈ q.columns, holds (.column column) ∧ ∀ a ∈ column.attributes, holds (.attr a) := by
  have htexts : ∀ part ∈ q.texts, (Outline.ofText part).Each holds := fun part _ => h.ofText part
  simp only [Outline.ofComponent, Outline.ofRow, Outline.ofColumn, each_mk, List.forall_mem_append,
    List.forall_mem_map, h.ofAttribute, h.ofOption, and_assoc]
  rw [and_iff_right htexts]

theorem ofHeading (h : Plain holds) (heading : Section) :
    (Outline.ofComponent (.heading heading)).Each holds ↔
      holds (.heading heading) ∧ ∀ a ∈ heading.attributes, holds (.attr a) := by
  simp only [Outline.ofComponent, each_mk, List.forall_mem_map, h.ofAttribute]

end Plain

/-- What is said of nodes holds of all that do not stand in interludes. -/
structure Outer (holds : Node → Prop) : Prop extends Plain holds where
  question (q : Question) : holds (.question q)
  heading (heading : Section) : holds (.heading heading)
  row (option : AnswerOption) : holds (.row option)
  column (option : AnswerOption) : holds (.column option)
  attr (a : Attribute) : holds (.attr a)

theorem Outer.ofComponent (h : Outer holds) {component : Component} (hcomponent : ∀ i, component ≠ .interlude i) :
    (Outline.ofComponent component).Each holds := by
  cases component with
  | question q =>
      exact h.toPlain.ofQuestion q |>.mpr ⟨h.question q, fun a _ => h.attr a,
        fun row _ => ⟨h.row row, fun a _ => h.attr a⟩, fun column _ => ⟨h.column column, fun a _ => h.attr a⟩⟩
  | heading heading => exact h.toPlain.ofHeading heading |>.mpr ⟨h.heading heading, fun a _ => h.attr a⟩
  | interlude i => exact absurd rfl (hcomponent i)

/-- What is said of nodes holds of texts and of the logic language. -/
structure Logical (holds : Node → Prop) : Prop where
  text (token : Token) : holds (.text token)
  statement (statement : Statement) : holds (.statement statement)
  block (block : Block) : holds (.block block)
  expression (expr : Expr) : holds (.expression expr)

namespace Logical

theorem plain (h : Logical holds) : Plain holds := ⟨h.text, fun _ => h.statement _, h.expression⟩

mutual

theorem ofStatement (h : Logical holds) (statement : Statement) : (Outline.ofStatement statement).Each holds := by
  cases statement with
  | simple statement => exact h.plain.ofSimple statement
  | rule name conditions action span =>
      refine each_mk.mpr ⟨h.statement _, List.forall_mem_append.mpr ⟨h.plain.ofSimples conditions, ?_⟩⟩
      exact List.forall_mem_singleton.mpr (h.ofBlock action)
  | action name action span => exact each_mk.mpr ⟨h.statement _, List.forall_mem_singleton.mpr (h.ofBlock action)⟩
  | conditionSet name conditions span => exact each_mk.mpr ⟨h.statement _, h.plain.ofSimples conditions⟩
  | declaration name value span =>
      refine each_mk.mpr ⟨h.statement _, ?_⟩
      cases value with
      | none => exact List.forall_mem_nil _
      | some value => exact List.forall_mem_singleton.mpr (h.plain.ofExpr value)
  | command name arguments span =>
      exact each_mk.mpr ⟨h.statement _, List.forall_mem_map.mpr fun argument _ => h.plain.ofExpr argument⟩
  | evaluate target span => exact each_mk.mpr ⟨h.statement _, List.forall_mem_singleton.mpr (h.plain.ofName target)⟩
  | perform target span => exact each_mk.mpr ⟨h.statement _, List.forall_mem_singleton.mpr (h.plain.ofName target)⟩

theorem ofBlock (h : Logical holds) (block : Block) : (Outline.ofBlock block).Each holds := by
  cases block with
  | mk statements span => exact each_mk.mpr ⟨h.block _, h.ofStatements statements⟩

theorem ofStatements (h : Logical holds) (statements : List Statement) :
    ∀ child ∈ Outline.ofStatements statements, child.Each holds := by
  cases statements with
  | nil => exact List.forall_mem_nil _
  | cons statement statements => exact List.forall_mem_cons.mpr ⟨h.ofStatement statement, h.ofStatements statements⟩

end

theorem ofInterlude (h : Logical holds) (i : Interlude) (hnode : holds (.interlude i)) :
    (Outline.ofComponent (.interlude i)).Each holds :=
  each_mk.mpr ⟨hnode, List.forall_mem_map.mpr fun statement _ => h.ofStatement statement⟩

end Logical

end Questionnaire
