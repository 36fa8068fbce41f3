import Questionnaire.Proofs.Document.Readback

/-! Trees told apart by their text. All words in the form of a sound tree may stand as such, so that its text tells the
form, and the form tells the tree. The main statement is about any two parsed documents: two statements of them, or two
expressions, are shown as the same text just if they are the same but for spans and places, where an infinite number
counts as the name that it is shown as. -/

namespace Questionnaire

namespace Form

instance (text : String) : Decidable (IsAtom text) :=
  decidable_of_iff ((!text.toList.isEmpty && text.toList.all fun c => !isBoundary c) = true) <| by
    rw [Bool.and_eq_true, Bool.not_eq_true', List.isEmpty_eq_false_iff, List.all_eq_true]
    simp only [Bool.not_eq_true']
    exact ⟨fun ⟨hne, hinner⟩ => ⟨hne, hinner⟩, fun h => ⟨h.ne, h.inner⟩⟩

theorem isAtom_of_isWord {text : String} (h : Lexeme.IsWord text.toList) : IsAtom text := by
  refine ⟨fun hnil => ?_, fun c hc => Lexeme.contains_eq_false rfl (h.parts c hc)⟩
  obtain ⟨c, hc, -⟩ := h.starts
  rw [hnil] at hc
  cases hc

theorem isAtom_of_mantissa {text : String} {coefficient places : ℕ}
    (h : Numeral.Mantissa text.toList coefficient places) : IsAtom text := by
  obtain ⟨c, rest, hcons, -⟩ := h.exists_head
  refine ⟨hcons ▸ List.cons_ne_nil c rest, ?_⟩
  have hdigit {digits : List Char} (hdigits : ∀ c ∈ digits, c.isDigit = true) : ∀ c ∈ digits, isBoundary c = false :=
    fun c hc => Lexeme.contains_eq_false rfl (hdigits c hc)
  generalize text.toList = text at h
  cases h with
  | whole hdigits => exact hdigit hdigits
  | pointed hwhole hfraction =>
      rw [List.forall_mem_append, List.forall_mem_cons]
      exact ⟨hdigit hwhole, rfl, hdigit hfraction⟩

theorem isAtom_plainText {value : Double} (hheld : value.Held) (hplain : value.Plain) : IsAtom value.plainText := by
  cases value with
  | notANumber => exact absurd rfl hplain.2
  | infinite negative => cases negative <;> decide
  | finite negative significand exponent =>
      obtain ⟨coefficient, places, hmantissa⟩ := Double.exists_mantissa_of_plain hheld hplain
      exact isAtom_of_mantissa hmantissa

end Form

open Form (Proper)

theorem Token.IsName.proper {name : Token} (h : name.IsName) : Proper (.word name.text) :=
  .word (Form.isAtom_of_isWord h.shaped)

namespace Expr

mutual

theorem proper_form (expr : Expr) (h : expr.Sound) : expr.form.Proper := by
  cases expr with
  | binary left op right span =>
      obtain ⟨hleft, hright⟩ := (sound_iff _).mp h
      refine .list (by cases op <;> decide) (List.forall_mem_cons.mpr ⟨proper_form left hleft, ?_⟩)
      exact List.forall_mem_singleton.mpr (proper_form right hright)
  | assign target value span =>
      obtain ⟨htarget, hvalue⟩ := (sound_iff _).mp h
      refine .list (by decide) (List.forall_mem_cons.mpr ⟨htarget.proper, ?_⟩)
      exact List.forall_mem_singleton.mpr (proper_form value hvalue)
  | symbol name span =>
      have hname : name.IsName := (sound_iff _).mp h
      exact hname.proper
  | property container name span =>
      obtain ⟨hname, hcontainer⟩ := (sound_iff _).mp h
      refine .list (by decide) (List.forall_mem_cons.mpr ⟨proper_form container hcontainer, ?_⟩)
      exact List.forall_mem_singleton.mpr hname.proper
  | number value span =>
      obtain ⟨hheld, hplain⟩ := (sound_iff _).mp h
      exact .word (Form.isAtom_plainText hheld hplain)
  | string value span => exact .quoted
  | boolean value span => exact .word (by cases value <;> decide)
  | undefined span => exact .word (by decide)
  | answered question mode answers span =>
      obtain ⟨hquestion, hanswers⟩ := (sound_iff _).mp h
      exact .list (by cases mode <;> decide)
        (List.forall_mem_cons.mpr ⟨hquestion.proper, proper_forms answers hanswers⟩)

theorem proper_forms (exprs : List Expr) (h : ∀ expr ∈ exprs, expr.Sound) : ∀ item ∈ forms exprs, item.Proper := by
  cases exprs with
  | nil => exact List.forall_mem_nil _
  | cons expr exprs =>
      obtain ⟨hexpr, hexprs⟩ := List.forall_mem_cons.mp h
      exact List.forall_mem_cons.mpr ⟨proper_form expr hexpr, proper_forms exprs hexprs⟩

end

end Expr

theorem SimpleStatement.proper_forms {conditions : List SimpleStatement}
    (h : ∀ condition ∈ conditions, condition.expression.Sound) : ∀ item ∈ forms conditions, item.Proper := by
  induction conditions with
  | nil => exact List.forall_mem_nil _
  | cons condition conditions ih =>
      obtain ⟨hcondition, hconditions⟩ := List.forall_mem_cons.mp h
      refine List.forall_mem_cons.mpr ⟨.word (by decide), List.forall_mem_cons.mpr ⟨?_, ih hconditions⟩⟩
      exact condition.expression.proper_form hcondition

mutual

theorem Statement.proper_form (statement : Statement) (h : statement.Sound) : statement.form.Proper := by
  cases statement with
  | simple statement => exact statement.expression.proper_form ((Statement.sound_iff _).mp h)
  | rule name conditions action span =>
      obtain ⟨hname, hconditions, haction⟩ := (Statement.sound_iff _).mp h
      refine .list (by decide) (List.forall_mem_cons.mpr ⟨hname.proper, List.forall_mem_append.mpr ⟨?_, ?_⟩⟩)
      · exact SimpleStatement.proper_forms hconditions
      · exact List.forall_mem_singleton.mpr (Block.proper_form action haction)
  | action name action span =>
      obtain ⟨hname, haction⟩ := (Statement.sound_iff _).mp h
      refine .list (by decide) (List.forall_mem_cons.mpr ⟨hname.proper, ?_⟩)
      exact List.forall_mem_singleton.mpr (Block.proper_form action haction)
  | conditionSet name conditions span =>
      obtain ⟨hname, hconditions⟩ := (Statement.sound_iff _).mp h
      exact .list (by decide) (List.forall_mem_cons.mpr ⟨hname.proper, SimpleStatement.proper_forms hconditions⟩)
  | declaration name value span =>
      obtain ⟨hname, hvalue⟩ := (Statement.sound_iff _).mp h
      refine .list (by decide) (List.forall_mem_cons.mpr ⟨hname.proper, ?_⟩)
      cases value with
      | none => exact List.forall_mem_nil _
      | some value => exact List.forall_mem_singleton.mpr (value.proper_form (hvalue value rfl))
  | command name arguments span =>
      obtain ⟨hname, harguments⟩ := (Statement.sound_iff _).mp h
      exact .list (Form.isAtom_of_isWord hname.shaped) (Expr.proper_forms arguments harguments)
  | evaluate target span =>
      have htarget : target.IsName := (Statement.sound_iff _).mp h
      exact .list (by decide) (List.forall_mem_singleton.mpr htarget.proper)
  | perform target span =>
      have htarget : target.IsName := (Statement.sound_iff _).mp h
      exact .list (by decide) (List.forall_mem_singleton.mpr htarget.proper)

theorem Block.proper_form (block : Block) (h : block.Sound) : block.form.Proper := by
  cases block with
  | mk statements span =>
      have hstatements : ∀ statement ∈ statements, statement.Sound := (Block.sound_iff _).mp h
      exact .block (Statement.proper_forms statements hstatements)

theorem Statement.proper_forms (statements : List Statement) (h : ∀ statement ∈ statements, statement.Sound) :
    ∀ item ∈ Statement.forms statements, item.Proper := by
  cases statements with
  | nil => exact List.forall_mem_nil _
  | cons statement statements =>
      obtain ⟨hfirst, hmore⟩ := List.forall_mem_cons.mp h
      exact List.forall_mem_cons.mpr
        ⟨Statement.proper_form statement hfirst, Statement.proper_forms statements hmore⟩

end

theorem Expr.rendered_eq_iff {left right : Expr} (hleft : left.Sound) (hright : right.Sound) :
    left.rendered = right.rendered ↔ left.bare = right.bare := by
  rw [← String.toList_inj, ← left.text_form, ← right.text_form,
    Form.text_inj (left.proper_form hleft) (right.proper_form hright), Expr.form_eq_iff hleft hright]

theorem Statement.rendered_eq_iff {left right : Statement} (hleft : left.Sound) (hright : right.Sound) :
    left.rendered = right.rendered ↔ left.bare = right.bare := by
  rw [← String.toList_inj, ← left.text_form, ← right.text_form,
    Form.text_inj (left.proper_form hleft) (right.proper_form hright), Statement.form_eq_iff hleft hright]

namespace Document

variable {limits others : Limits} {source input : String} {document other : Document}

/-- Statements of parsed documents are shown as one text just if they are the same but for spans and places, and so are
expressions. An infinite number is the same as the name that it is shown as. -/
theorem rendered_eq_iff_of_parse (h : Document.parse limits source = .ok document)
    (hother : Document.parse others input = .ok other) :
    (∀ left right, .statement left ∈ document.nodes → .statement right ∈ other.nodes →
      (left.rendered = right.rendered ↔ left.bare = right.bare)) ∧
      ∀ left right, .expression left ∈ document.nodes → .expression right ∈ other.nodes →
        (left.rendered = right.rendered ↔ left.bare = right.bare) :=
  ⟨fun _ _ hleft hright => Statement.rendered_eq_iff (sound_of_parse h hleft) (sound_of_parse hother hright),
    fun _ _ hleft hright => Expr.rendered_eq_iff (sound_of_parse h hleft) (sound_of_parse hother hright)⟩

theorem rendered_eq_iff_of_parse_command :
    let name : Token := ⟨.callKeyword, "hide", ⟨1, 4⟩⟩
    let grouped : Token := ⟨.identifier, "a", ⟨1, 10⟩⟩
    let plain : Token := ⟨.identifier, "a", ⟨1, 9⟩⟩
    let group : Span := ⟨⟨.punctuation, "(", ⟨1, 9⟩⟩, ⟨.punctuation, ")", ⟨1, 11⟩⟩⟩
    let left : Statement := .command name [.symbol grouped group] ⟨name, ⟨.punctuation, ")", ⟨1, 12⟩⟩⟩
    let right : Statement := .command name [.symbol plain (.single plain)] ⟨name, ⟨.punctuation, ")", ⟨1, 10⟩⟩⟩
    let opening : Token := ⟨.logicOpen, "<%", ⟨1, 1⟩⟩
    let document : Document := ⟨[.interlude ⟨[left], ⟨opening, ⟨.logicClose, "%>", ⟨1, 14⟩⟩⟩⟩]⟩
    let other : Document := ⟨[.interlude ⟨[right], ⟨opening, ⟨.logicClose, "%>", ⟨1, 13⟩⟩⟩⟩]⟩
    Document.parse ⟨9, 9⟩ "<% hide((a)) %>" = .ok document ∧ Document.parse ⟨9, 9⟩ "<% hide(a); %>" = .ok other ∧
      .statement left ∈ document.nodes ∧ .statement right ∈ other.nodes ∧ left.rendered = right.rendered ∧
      left.bare = right.bare := by
  intro name grouped plain group left right opening document other
  have hparse : Document.parse ⟨9, 9⟩ "<% hide((a)) %>" = .ok document := by cbv
  have hother : Document.parse ⟨9, 9⟩ "<% hide(a); %>" = .ok other := by cbv
  have hleft : .statement left ∈ document.nodes := List.mem_iff_getElem?.mpr ⟨1, rfl⟩
  have hright : .statement right ∈ other.nodes := List.mem_iff_getElem?.mpr ⟨1, rfl⟩
  have hrendered : left.rendered = right.rendered := rfl
  exact ⟨hparse, hother, hleft, hright, hrendered,
    ((rendered_eq_iff_of_parse hparse hother).1 left right hleft hright).mp hrendered⟩

end Document

end Questionnaire
