import Questionnaire.Walk.Outline

/-! The outlines within an outline, in the order a walk comes to them. Their nodes are the nodes of the walk, so that
what holds of a node and its children wherever they stand in a document is said of these outlines. -/

namespace Questionnaire

namespace Outline

mutual

/-- An outline and all that stand below it, each before its children. -/
def subtrees : Outline → List Outline
  | mk node children => mk node children :: allSubtrees children

def allSubtrees : List Outline → List Outline
  | [] => []
  | outline :: outlines => outline.subtrees ++ allSubtrees outlines

end

theorem allSubtrees_eq_flatMap (outlines : List Outline) : allSubtrees outlines = outlines.flatMap subtrees := by
  induction outlines with
  | nil => rfl
  | cons outline outlines ih => rw [allSubtrees, ih, List.flatMap_cons]

theorem subtrees_mk (node : Node) (children : List Outline) :
    (mk node children).subtrees = mk node children :: children.flatMap subtrees := by
  rw [subtrees, allSubtrees_eq_flatMap]

theorem mem_subtrees_mk {tree : Outline} {node : Node} {children : List Outline} :
    tree ∈ (mk node children).subtrees ↔ tree = mk node children ∨ ∃ child ∈ children, tree ∈ child.subtrees := by
  rw [subtrees_mk, List.mem_cons, List.mem_flatMap]

/-- What holds of a node if it holds of its children holds of all outlines. -/
theorem induction {motive : Outline → Prop}
    (mk : ∀ node children, (∀ child ∈ children, motive child) → motive (.mk node children)) (tree : Outline) :
    motive tree :=
  @rec motive (fun trees => ∀ tree ∈ trees, motive tree) mk (List.forall_mem_nil _)
    (fun _ _ htree htrees => List.forall_mem_cons.mpr ⟨htree, htrees⟩) tree

theorem self_mem_subtrees (tree : Outline) : tree ∈ tree.subtrees := by
  cases tree with
  | mk node children => exact mem_subtrees_mk.mpr (.inl rfl)

mutual

theorem map_snd_visits (place : Place) (outline : Outline) :
    (outline.visits place).map Prod.snd = outline.subtrees.map Outline.node := by
  cases outline with
  | mk node children => rw [visits, subtrees, List.map_cons, List.map_cons, map_snd_visitsFrom place 0 children]; rfl

theorem map_snd_visitsFrom (place : Place) (index : Nat) (outlines : List Outline) :
    (visitsFrom place index outlines).map Prod.snd = (allSubtrees outlines).map Outline.node := by
  cases outlines with
  | nil => rfl
  | cons outline outlines =>
      rw [visitsFrom, allSubtrees, List.map_append, List.map_append, map_snd_visits (index :: place) outline,
        map_snd_visitsFrom place (index + 1) outlines]

end

@[simp] theorem node_ofExpr (expr : Expr) : (ofExpr expr).node = .expression expr := by
  cases expr <;> rfl

theorem exists_of_mem_subtrees_ofName {tree : Outline} {token : Token} (h : tree ∈ (ofName token).subtrees) :
    ∃ inner, tree = ofExpr inner := ⟨.symbol token (.single token), List.mem_singleton.mp h⟩

mutual

/-- Below an expression stand expressions alone. A name that is no expression of its own counts as one. -/
theorem exists_of_mem_subtrees {tree : Outline} (expr : Expr) (h : tree ∈ (ofExpr expr).subtrees) :
    ∃ inner, tree = ofExpr inner := by
  cases expr with
  | binary left op right span =>
      rw [ofExpr, mem_subtrees_mk] at h
      simp only [List.mem_cons, List.not_mem_nil, or_false, exists_eq_or_imp, exists_eq_left] at h
      rcases h with rfl | h | h
      · exact ⟨.binary left op right span, rfl⟩
      · exact exists_of_mem_subtrees left h
      · exact exists_of_mem_subtrees right h
  | assign target value span =>
      rw [ofExpr, mem_subtrees_mk] at h
      simp only [List.mem_cons, List.not_mem_nil, or_false, exists_eq_or_imp, exists_eq_left] at h
      rcases h with rfl | h | h
      · exact ⟨.assign target value span, rfl⟩
      · exact exists_of_mem_subtrees_ofName h
      · exact exists_of_mem_subtrees value h
  | property container name span =>
      rw [ofExpr, mem_subtrees_mk] at h
      simp only [List.mem_cons, List.not_mem_nil, or_false, exists_eq_left] at h
      rcases h with rfl | h
      · exact ⟨.property container name span, rfl⟩
      · exact exists_of_mem_subtrees container h
  | answered question mode answers span =>
      rw [ofExpr, mem_subtrees_mk] at h
      simp only [List.mem_cons, exists_eq_or_imp] at h
      rcases h with rfl | h | ⟨child, hchild, h⟩
      · exact ⟨.answered question mode answers span, rfl⟩
      · exact exists_of_mem_subtrees_ofName h
      · exact exists_of_mem_subtrees_ofExprs answers hchild h
  | symbol name span => exact ⟨.symbol name span, List.mem_singleton.mp h⟩
  | number value span => exact ⟨.number value span, List.mem_singleton.mp h⟩
  | string value span => exact ⟨.string value span, List.mem_singleton.mp h⟩
  | boolean value span => exact ⟨.boolean value span, List.mem_singleton.mp h⟩
  | undefined span => exact ⟨.undefined span, List.mem_singleton.mp h⟩

theorem exists_of_mem_subtrees_ofExprs {tree child : Outline} (exprs : List Expr) (hchild : child ∈ ofExprs exprs)
    (h : tree ∈ child.subtrees) : ∃ inner, tree = ofExpr inner := by
  cases exprs with
  | nil => cases hchild
  | cons expr exprs =>
      rw [ofExprs, List.mem_cons] at hchild
      rcases hchild with rfl | hchild
      · exact exists_of_mem_subtrees expr h
      · exact exists_of_mem_subtrees_ofExprs exprs hchild h

end

end Outline

namespace Document

/-- All outlines within a document, in the order of a walk. -/
def subtrees (document : Document) : List Outline := Outline.allSubtrees document.outlines

theorem map_node_subtrees (document : Document) : document.subtrees.map Outline.node = document.nodes :=
  (Outline.map_snd_visitsFrom [] 0 document.outlines).symm

theorem mem_subtrees {document : Document} {tree : Outline} :
    tree ∈ document.subtrees ↔ ∃ component ∈ document.components, tree ∈ (Outline.ofComponent component).subtrees := by
  rw [subtrees, outlines, Outline.allSubtrees_eq_flatMap, List.flatMap_map, List.mem_flatMap]

theorem mem_nodes {document : Document} {node : Node} :
    node ∈ document.nodes ↔ ∃ tree ∈ document.subtrees, tree.node = node := by
  rw [← map_node_subtrees, List.mem_map]

end Document

end Questionnaire
