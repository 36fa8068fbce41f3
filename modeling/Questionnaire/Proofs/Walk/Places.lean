import Mathlib.Data.List.Infix
import Questionnaire.Walk.Outline

/-! Places tell nodes apart. All that stands below a node has the place of that node at the end of its own, and below
its children these ends differ, so that no walk comes to a place twice. -/

namespace Questionnaire.Outline

mutual

theorem suffix_of_mem_visits {place other : Place} {node : Node} (outline : Outline)
    (h : (other, node) ∈ outline.visits place) : place <:+ other := by
  cases outline with
  | mk root children =>
      rw [visits, List.mem_cons] at h
      rcases h with h | h
      · cases h
        exact List.suffix_refl place
      · obtain ⟨index, -, hsuffix⟩ := exists_suffix_of_mem_visitsFrom children h
        exact (List.suffix_cons index place).trans hsuffix

theorem exists_suffix_of_mem_visitsFrom {place other : Place} {node : Node} {index : Nat} (outlines : List Outline)
    (h : (other, node) ∈ visitsFrom place index outlines) :
    ∃ child, index ≤ child ∧ child :: place <:+ other := by
  cases outlines with
  | nil => cases h
  | cons outline outlines =>
      rw [visitsFrom, List.mem_append] at h
      rcases h with h | h
      · exact ⟨index, Nat.le_refl _, suffix_of_mem_visits outline h⟩
      · obtain ⟨child, hchild, hsuffix⟩ := exists_suffix_of_mem_visitsFrom outlines h
        exact ⟨child, Nat.le_of_succ_le hchild, hsuffix⟩

end

mutual

/-- No place is come to twice. -/
theorem visits_pairwise (outline : Outline) (place : Place) :
    (outline.visits place).Pairwise fun left right => left.1 ≠ right.1 := by
  cases outline with
  | mk node children =>
      rw [visits, List.pairwise_cons]
      refine ⟨fun visit hvisit => ?_, visitsFrom_pairwise children place 0⟩
      rintro rfl
      obtain ⟨child, -, hsuffix⟩ := exists_suffix_of_mem_visitsFrom children hvisit
      exact absurd hsuffix.length_le (by simp)

theorem visitsFrom_pairwise (outlines : List Outline) (place : Place) (index : Nat) :
    (visitsFrom place index outlines).Pairwise fun left right => left.1 ≠ right.1 := by
  cases outlines with
  | nil => exact .nil
  | cons outline outlines =>
      rw [visitsFrom, List.pairwise_append]
      refine ⟨visits_pairwise outline (index :: place), visitsFrom_pairwise outlines place (index + 1), ?_⟩
      rintro left hleft right hright hsame
      have hfirst := suffix_of_mem_visits outline hleft
      obtain ⟨child, hchild, hsecond⟩ := exists_suffix_of_mem_visitsFrom outlines hright
      rw [hsame] at hfirst
      have hequal := (List.suffix_of_suffix_length_le hfirst hsecond (Nat.le_refl _)).eq_of_length rfl
      obtain ⟨rfl, -⟩ := List.cons.inj hequal
      exact Nat.not_succ_le_self _ hchild

end

end Questionnaire.Outline
