import Questionnaire.Proofs.Walk.Recording

/-! How many nodes a walk has open at once. A visitor that counts them finds the height of what it walks over, that is
the number of nodes on the longest way down. -/

namespace Questionnaire

namespace Outline

mutual

/-- The number of nodes on the longest way down. -/
def height : Outline → Nat
  | mk _ children => heights children + 1

/-- The greatest of the heights. -/
def heights : List Outline → Nat
  | [] => 0
  | outline :: outlines => max outline.height (heights outlines)

end

theorem height_le_heights {outline : Outline} {outlines : List Outline} (h : outline ∈ outlines) :
    outline.height ≤ heights outlines := by
  induction outlines with
  | nil => cases h
  | cons first outlines ih =>
      rw [heights]
      rcases List.mem_cons.mp h with rfl | h
      · exact Nat.le_max_left _ _
      · exact Nat.le_trans (ih h) (Nat.le_max_right _ _)

theorem heights_le {outlines : List Outline} {bound : Nat} (h : ∀ outline ∈ outlines, outline.height ≤ bound) :
    heights outlines ≤ bound := by
  induction outlines with
  | nil => exact Nat.zero_le _
  | cons first outlines ih =>
      rw [List.forall_mem_cons] at h
      exact Nat.max_le.mpr ⟨h.1, ih h.2⟩

theorem height_le_of_mem_subtrees {tree : Outline} (outline : Outline) (h : tree ∈ outline.subtrees) :
    tree.height ≤ outline.height := by
  induction outline using Outline.induction with
  | mk node children ih =>
      rcases mem_subtrees_mk.mp h with rfl | ⟨child, hchild, h⟩
      · exact Nat.le_refl _
      · exact Nat.le_succ_of_le (Nat.le_trans (ih child hchild h) (height_le_heights hchild))

end Outline

/-- The nodes that are open, and the most that have been open at once. -/
structure Gauge where
  opened : Nat
  most : Nat

/-- Counts the nodes that are open. -/
def Visitor.gauge : Visitor Gauge where
  enter _ _ gauge := .ok () ⟨gauge.opened + 1, max gauge.most (gauge.opened + 1)⟩
  leave _ _ gauge := .ok () ⟨gauge.opened - 1, gauge.most⟩

namespace Outline

mutual

/-- A walk closes what it opens. On the way down it has as many nodes open as the outline is high. -/
theorem walk_gauge (outline : Outline) {gauge : Gauge} (place : Place) (h : gauge.opened ≤ gauge.most) :
    outline.walk .gauge place gauge = .ok () ⟨gauge.opened, max gauge.most (gauge.opened + outline.height)⟩ := by
  cases outline with
  | mk node children =>
      rw [walk_mk_eq_ok rfl (walkFrom_gauge children place 0 (Nat.le_max_right _ _)) rfl, height, Nat.add_sub_cancel]
      congr 2
      dsimp only
      omega

theorem walkFrom_gauge (outlines : List Outline) {gauge : Gauge} (place : Place) (index : Nat)
    (h : gauge.opened ≤ gauge.most) :
    walkFrom .gauge place index outlines gauge =
      .ok () ⟨gauge.opened, max gauge.most (gauge.opened + heights outlines)⟩ := by
  cases outlines with
  | nil =>
      show EStateM.Result.ok () gauge = _
      rw [heights, Nat.add_zero, Nat.max_eq_left h]
  | cons outline outlines =>
      have hfirst := walk_gauge outline (index :: place) h
      refine (walkFrom_cons_of_ok hfirst).trans ((walkFrom_gauge outlines place (index + 1) ?_).trans ?_)
      · exact Nat.le_trans h (Nat.le_max_left _ _)
      rw [heights]
      congr 2
      dsimp only
      omega

end

end Outline

namespace Document

/-- The number of nodes on the longest way down from a component. -/
def height (document : Document) : Nat := Outline.heights document.outlines

theorem walk_gauge (document : Document) : document.walk .gauge ⟨0, 0⟩ = .ok () ⟨0, document.height⟩ := by
  rw [walk, Outline.walkFrom_gauge document.outlines [] 0 (Nat.le_refl 0)]
  simp only [Nat.zero_add, Nat.zero_max, height]

end Document

end Questionnaire
