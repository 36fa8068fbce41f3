import Questionnaire.Legality.Values
import Questionnaire.Proofs.Walk.Recording

/-! The check as a list of verdicts. A visitor that keeps nothing, and that does nothing when it leaves a node, walks
over a document as over the list of its nodes, up to the first that it finds at fault. -/

namespace Questionnaire

namespace Legality

variable {verdict : Node → Verdict}

theorem ofExcept_bind (first second : Verdict) :
    (MonadExcept.ofExcept (first >>= fun _ => second) : EStateM Diagnostic Unit Unit) =
      MonadExcept.ofExcept first >>= fun _ => MonadExcept.ofExcept second := by
  cases first <;> rfl

end Legality

namespace Outline

open Legality

variable (verdict : Node → Verdict)

mutual

theorem walk_judge (place : Place) (outline : Outline) :
    outline.walk (judge verdict) place =
      MonadExcept.ofExcept (((outline.visits place).map Prod.snd).forM verdict) := by
  cases outline with
  | mk node children =>
      have hleave : (judge verdict).leave place node = pure () := rfl
      rw [walk, walkFrom_judge place 0 children, hleave, bind_pure_unit]
      exact (ofExcept_bind _ _).symm

theorem walkFrom_judge (place : Place) (index : Nat) (outlines : List Outline) :
    walkFrom (judge verdict) place index outlines =
      MonadExcept.ofExcept (((visitsFrom place index outlines).map Prod.snd).forM verdict) := by
  cases outlines with
  | nil => rfl
  | cons outline outlines =>
      rw [walkFrom, visitsFrom, List.map_append, walk_judge (index :: place) outline,
        walkFrom_judge place (index + 1) outlines, List.forM_eq_forM, List.forM_append]
      exact (ofExcept_bind _ _).symm

end

end Outline

namespace Document

theorem walked_judge (verdict : Node → Verdict) (document : Document) :
    document.walked (Legality.judge verdict) () = document.nodes.forM verdict := by
  rw [walked, walk, Outline.walkFrom_judge]
  show _ = ((Outline.visitsFrom [] 0 document.outlines).map Prod.snd).forM verdict
  cases ((Outline.visitsFrom [] 0 document.outlines).map Prod.snd).forM verdict with
  | ok _ => rfl
  | error _ => rfl

/-- The check goes through the nodes twice, in the order of a walk. -/
theorem check_eq (document : Document) : document.check =
    (document.nodes.forM Legality.structural >>= fun _ => document.nodes.forM Legality.valued) := by
  rw [check, walked_judge, walked_judge]

end Document

end Questionnaire
