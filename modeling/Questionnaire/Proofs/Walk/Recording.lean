import Questionnaire.Walk.Visitor
import Questionnaire.Proofs.Walk.Subtrees

/-! Walks that are not cut short. A visitor without faults is told of all nodes, and one that keeps those it enters has
at the end the nodes of the document in their order. -/

namespace Questionnaire

/-- The second step goes on from where the first one ends. -/
theorem run_bind {α β σ : Type} (step : EStateM Diagnostic σ α) (next : α → EStateM Diagnostic σ β) (state : σ) :
    (step >>= next) state =
      match step state with
      | .ok a after => next a after
      | .error diagnostic after => .error diagnostic after := by
  show EStateM.bind step next state = _
  rw [EStateM.bind]
  cases step state with
  | ok a after => rfl
  | error diagnostic after => rfl

namespace Outline

section

variable {σ : Type} {visitor : Visitor σ} {before entered walked after : σ} {place : Place}

theorem walk_mk_eq_ok {node : Node} {children : List Outline}
    (henter : visitor.enter place node before = .ok () entered)
    (hchildren : walkFrom visitor place 0 children entered = .ok () walked)
    (hleave : visitor.leave place node walked = .ok () after) :
    (mk node children).walk visitor place before = .ok () after := by
  rw [walk, run_bind, henter]
  dsimp only
  rw [run_bind, hchildren]
  exact hleave

variable {index : Nat} {outline : Outline} {outlines : List Outline}

theorem walkFrom_cons_of_ok (h : outline.walk visitor (index :: place) before = .ok () walked) :
    walkFrom visitor place index (outline :: outlines) before =
      walkFrom visitor place (index + 1) outlines walked := by
  rw [walkFrom, run_bind, h]

end

end Outline

/-- Keeps the nodes in the order in which they are entered. -/
def Visitor.recorder : Visitor (List Node) where
  enter _ node entered := .ok () (entered ++ [node])
  leave _ _ entered := .ok () entered

namespace Outline

mutual

theorem walk_recorder (outline : Outline) (place : Place) (before : List Node) :
    outline.walk .recorder place before = .ok () (before ++ outline.subtrees.map node) := by
  cases outline with
  | mk node children =>
      rw [subtrees, List.map_cons, List.append_cons]
      exact walk_mk_eq_ok rfl (walkFrom_recorder children place 0 _) rfl

theorem walkFrom_recorder (outlines : List Outline) (place : Place) (index : Nat) (before : List Node) :
    walkFrom .recorder place index outlines before = .ok () (before ++ (allSubtrees outlines).map node) := by
  cases outlines with
  | nil =>
      rw [allSubtrees, List.map_nil, List.append_nil]
      rfl
  | cons outline outlines =>
      rw [allSubtrees, List.map_append, ← List.append_assoc]
      exact (walkFrom_cons_of_ok (walk_recorder outline (index :: place) before)).trans
        (walkFrom_recorder outlines place (index + 1) _)

end

end Outline

namespace Document

theorem walk_recorder (document : Document) : document.walk .recorder [] = .ok () document.nodes := by
  rw [walk, Outline.walkFrom_recorder, List.nil_append, ← map_node_subtrees]
  rfl

theorem walkComponent_recorder {document : Document} {index : Nat} {component : Component}
    (h : document.components[index]? = some component) :
    document.walkComponent .recorder index [] =
      .ok () ((Outline.ofComponent component).subtrees.map Outline.node) := by
  have houtline : document.outlines[index]? = some (Outline.ofComponent component) := by
    rw [outlines, List.getElem?_map, h, Option.map_some]
  rw [walkComponent]
  simp only [houtline]
  rw [Outline.walk_recorder, List.nil_append]

end Document

end Questionnaire
