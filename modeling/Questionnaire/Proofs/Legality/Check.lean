import Questionnaire.Proofs.Legality.Judging
import Questionnaire.Proofs.Legality.Legal
import Questionnaire.Proofs.Walk.Each

/-! The check of a whole document. Its nodes are tried twice, for structure and for values; both have nothing to say of
texts and of the logic language, so that the nodes in question are those of the components, of the options and of the
attributes. -/

namespace Questionnaire

namespace Legality

/-- The verdict passes all nodes of the tree. -/
def Passes (verdict : Node → Verdict) (tree : Outline) : Prop := tree.Each fun node => verdict node = .ok ()

theorem logical_structural : Logical fun node => structural node = .ok () :=
  ⟨fun _ => rfl, fun _ => rfl, fun _ => rfl, fun _ => rfl⟩

theorem logical_valued : Logical fun node => valued node = .ok () :=
  ⟨fun _ => rfl, fun _ => rfl, fun _ => rfl, fun _ => rfl⟩

/-- The structure of a component and of its options is judged by what they are, not by their attributes. -/
theorem structural_eq_ok {component : Component} :
    Passes structural (.ofComponent component) ↔ component.Legal := by
  cases component with
  | question q =>
      rw [Passes, logical_structural.plain.ofQuestion, Component.Legal, List.forall_mem_append]
      simp only [structural, question_eq_ok, answerOption_eq_ok, implies_true, true_and, and_true]
  | heading h =>
      rw [Passes, logical_structural.plain.ofHeading, Component.Legal]
      simp only [structural, heading_eq_ok, implies_true, and_true]
  | interlude i => exact iff_of_true (logical_structural.ofInterlude i rfl) trivial

theorem valued_eq_ok {component : Component} :
    Passes valued (.ofComponent component) ↔ ∀ a ∈ component.attributes, a.Legal := by
  cases component with
  | question q =>
      rw [Passes, logical_valued.plain.ofQuestion, Component.attributes, List.forall_mem_append,
        List.forall_mem_flatMap, List.forall_mem_append]
      have hquestion : valued (.question q) = .ok () := rfl
      have hrow (row : AnswerOption) : valued (.row row) = .ok () := rfl
      have hcolumn (column : AnswerOption) : valued (.column column) = .ok () := rfl
      simp only [valued_attr_eq_ok, hquestion, hrow, hcolumn, true_and]
  | heading h =>
      rw [Passes, logical_valued.plain.ofHeading]
      simp only [valued_attr_eq_ok]
      exact and_iff_right rfl
  | interlude i => exact iff_of_true (logical_valued.ofInterlude i rfl) (List.forall_mem_nil _)

end Legality

namespace Document

theorem forM_nodes_eq_ok {document : Document} {verdict : Node → Verdict} :
    document.nodes.forM verdict = .ok () ↔
      ∀ component ∈ document.components, Legality.Passes verdict (.ofComponent component) := by
  rw [List.forM_eq_forM, Legality.forM_eq_ok, ← map_node_subtrees, List.forall_mem_map]
  constructor
  · intro h component hcomponent tree htree
    exact h tree (mem_subtrees.mpr ⟨component, hcomponent, htree⟩)
  · intro h tree htree
    obtain ⟨component, hcomponent, htree⟩ := mem_subtrees.mp htree
    exact h component hcomponent tree htree

/-- A document passes the check exactly if it is legal, whatever the order in which its rules are tried. -/
theorem check_eq_ok_iff (document : Document) : document.check = .ok () ↔ document.Legal := by
  rw [check_eq, Legality.bind_eq_ok, forM_nodes_eq_ok, forM_nodes_eq_ok]
  constructor
  · rintro ⟨hstructural, hvalued⟩
    exact ⟨fun c hc => Legality.structural_eq_ok.mp (hstructural c hc),
      fun c hc => Legality.valued_eq_ok.mp (hvalued c hc)⟩
  · rintro ⟨hcomponents, hvalues⟩
    exact ⟨fun c hc => Legality.structural_eq_ok.mpr (hcomponents c hc),
      fun c hc => Legality.valued_eq_ok.mpr (hvalues c hc)⟩

end Document

end Questionnaire
