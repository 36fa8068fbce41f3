import Questionnaire.Proofs.Document.Relocation
import Questionnaire.Proofs.Token.Layout

/-! Lexers that count from another place. A move of places that goes along with every step of the count takes a whole
run with it: the items are the same, each in the place that its own is moved to. -/

namespace Questionnaire

namespace Position

/-- The place so many lines further down, in the same column. -/
def down (lines : Nat) (position : Position) : Position := ⟨position.line + lines, position.column⟩

/-- To count on from the place moved to comes to where the place counted to is moved. -/
def Steady (move : Position → Position) : Prop :=
  ∀ (position : Position) (c : Char), (move position).step c = move (position.step c)

theorem steady_down (lines : Nat) : Steady (down lines) := by
  intro position c
  unfold step down
  split_ifs
  · rw [Nat.add_right_comm]
  · rfl

theorem down_injective (lines : Nat) : Function.Injective (down lines) := by
  rintro ⟨line, column⟩ ⟨line', column'⟩ h
  obtain ⟨hline, rfl⟩ := mk.inj h
  obtain rfl := Nat.add_right_cancel hline
  rfl

variable {move : Position → Position}

theorem Steady.past (h : Steady move) (position : Position) (text : List Char) :
    (move position).past text = move (position.past text) := by
  induction text generalizing position with
  | nil => rfl
  | cons c text ih => rw [past_cons, past_cons, h position c, ih]

end Position

open Position (Steady)

variable {move : Position → Position}

namespace Cursor

def relocate (move : Position → Position) (cursor : Cursor) : Cursor := ⟨cursor.rest, move cursor.position⟩

theorem skipWhile_relocate (h : Steady move) (blank : Char → Bool) (cursor : Cursor) :
    (cursor.relocate move).skipWhile blank = (cursor.skipWhile blank).relocate move := by
  rw [skipWhile, relocate, h.past]
  rfl

theorem passRemark_relocate (h : Steady move) (cursor : Cursor) :
    (cursor.relocate move).passRemark = cursor.passRemark.relocate move := by
  unfold passRemark relocate
  dsimp only
  split_ifs
  · rfl
  · rw [h.past]

theorem skipRemarks_relocate (h : Steady move) (cursor : Cursor) :
    (cursor.relocate move).skipRemarks = cursor.skipRemarks.relocate move := by
  fun_induction skipRemarks cursor with
  | case1 cursor hremark ih =>
      rw [← ih, ← passRemark_relocate h, ← skipWhile_relocate h, skipRemarks, dif_pos]
      rwa [skipWhile_relocate h]
  | case2 cursor hremark =>
      rw [← skipWhile_relocate h, skipRemarks, dif_neg]
      rwa [skipWhile_relocate h]

end Cursor

theorem Mode.skip_relocate (h : Steady move) (mode : Mode) (cursor : Cursor) :
    mode.skip (cursor.relocate move) = (mode.skip cursor).relocate move := by
  cases mode with
  | text => exact cursor.skipWhile_relocate h _
  | questionAttributes => exact cursor.skipWhile_relocate h _
  | optionAttributes => exact cursor.skipWhile_relocate h _
  | embedded resume => exact cursor.skipRemarks_relocate h
  | logic => exact cursor.skipRemarks_relocate h

def Item.relocate (move : Position → Position) : Item → Item := relocateOutcome move (Token.relocate move)

theorem Item.isLast_relocate (item : Item) : Item.isLast (item.relocate move) = Item.isLast item := by
  cases item <;> rfl

theorem Scan.item_relocate (scan : Scan) (position : Position) :
    scan.item (move position) = (scan.item position).relocate move := by
  unfold item
  split <;> rfl

namespace Lexer

def relocate (move : Position → Position) (lexer : Lexer) : Lexer :=
  { lexer with cursor := lexer.cursor.relocate move }

theorem next_relocate (h : Steady move) (lexer : Lexer) :
    (lexer.relocate move).next = (lexer.next.1.relocate move, lexer.next.2.relocate move) := by
  have hskip : (lexer.relocate move).mode.skip (lexer.relocate move).cursor = _ :=
    lexer.mode.skip_relocate h lexer.cursor
  rw [next_of_scan hskip rfl, Cursor.relocate, Scan.item_relocate, h.past]
  rfl

/-- The run is taken along. -/
theorem run_relocate (h : Steady move) (lexer : Lexer) :
    (lexer.relocate move).run = lexer.run.map fun step => (step.1.relocate move, step.2.relocate move) := by
  induction hlength : lexer.cursor.rest.length using Nat.strong_induction_on generalizing lexer with
  | _ length ih =>
    subst hlength
    by_cases hdone : lexer.done = true
    · have hdone' : (lexer.relocate move).done = true := hdone
      rw [run_of_done hdone, run_of_done hdone']
      rfl
    · have hopen : lexer.done = false := by simpa using hdone
      have hopens : (lexer.relocate move).done = false := hopen
      have hagain := next_relocate h lexer
      have hlast : Item.isLast (lexer.next.1.relocate move) = _ := lexer.next.1.isLast_relocate
      cases hends : Item.isLast lexer.next.1 with
      | true =>
          rw [run_of_last hopen rfl hends, run_of_last hopens hagain (hlast.trans hends)]
          rfl
      | false =>
          have hlater := ih _ (next_length_lt hends) lexer.next.2 rfl
          rw [run_of_not_last hopen rfl hends, run_of_not_last hopens hagain (hlast.trans hends), hlater]
          rfl

theorem items_relocate (h : Steady move) (lexer : Lexer) :
    (lexer.relocate move).items = lexer.items.map (Item.relocate move) := by
  rw [items, items, run_relocate h, List.map_map, List.map_map]
  rfl

end Lexer

end Questionnaire
