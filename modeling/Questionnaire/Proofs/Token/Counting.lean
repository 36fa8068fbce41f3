import Mathlib.Data.List.Induction
import Questionnaire.Position

/-! The two counters of a position against the text they have counted: lines are counted by the line feeds
passed, columns by the characters passed since the last of them. -/

namespace Questionnaire.Position

/-- The place where a text ends. -/
def endOf (text : List Char) : Position :=
  ⟨1 + text.count '\n', 1 + (text.reverse.takeWhile fun c => c != '\n').length⟩

theorem endOf_append_singleton (text : List Char) (c : Char) : endOf (text ++ [c]) = (endOf text).step c := by
  by_cases hc : c = '\n'
  · subst hc
    simp [endOf, step, Nat.add_assoc]
  · simp [endOf, step, hc, Nat.add_comm]

/-- Counting from the first character of a source comes to the place where the text read so far ends. -/
theorem past_origin (text : List Char) : origin.past text = endOf text := by
  induction text using List.reverseRecOn with
  | nil => rfl
  | append_singleton text c ih => rw [past_append, past_cons, past_nil, ih, endOf_append_singleton]

theorem past_endOf (before text : List Char) : (endOf before).past text = endOf (before ++ text) := by
  rw [← past_origin, ← past_origin, past_append]

end Questionnaire.Position
