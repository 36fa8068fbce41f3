import Questionnaire.Document.Rendered
import Questionnaire.Proofs.Document.Forms

/-! Expressions and statements as prefix forms, the text of which is what they are shown as. The forms leave out the
spans of a tree and the places of its tokens, and do not tell an infinite number from the name it is written as; a
bare tree leaves out the same. -/

namespace Questionnaire

/-- The token, wherever it stands. -/
def Token.bare (token : Token) : Token := { token with position := .origin }

mutual

/-- The expression without its spans, wherever its tokens stand. An infinite number is as good as its name. -/
def Expr.bare : Expr → Expr
  | .binary left op right _ => .binary left.bare op right.bare default
  | .assign target value _ => .assign target.bare value.bare default
  | .symbol name _ => .symbol name.bare default
  | .property container name _ => .property container.bare name.bare default
  | .number (.infinite false) _ => .symbol ⟨.identifier, "inf", .origin⟩ default
  | .number value _ => .number value default
  | .string value _ => .string value default
  | .boolean value _ => .boolean value default
  | .undefined _ => .undefined default
  | .answered question mode answers _ => .answered question.bare mode (Expr.allBare answers) default

def Expr.allBare : List Expr → List Expr
  | [] => []
  | expr :: exprs => expr.bare :: Expr.allBare exprs

end

def SimpleStatement.bare (statement : SimpleStatement) : SimpleStatement := ⟨statement.expression.bare, default⟩

mutual

/-- The statement without its spans, wherever its tokens stand. -/
def Statement.bare : Statement → Statement
  | .simple statement => .simple statement.bare
  | .rule name conditions action _ => .rule name.bare (conditions.map SimpleStatement.bare) action.bare default
  | .action name action _ => .action name.bare action.bare default
  | .conditionSet name conditions _ => .conditionSet name.bare (conditions.map SimpleStatement.bare) default
  | .declaration name value _ => .declaration name.bare (value.map Expr.bare) default
  | .command name arguments _ => .command name.bare (Expr.allBare arguments) default
  | .evaluate target _ => .evaluate target.bare default
  | .perform target _ => .perform target.bare default

def Block.bare : Block → Block
  | ⟨statements, _⟩ => ⟨Statement.allBare statements, default⟩

def Statement.allBare : List Statement → List Statement
  | [] => []
  | statement :: statements => statement.bare :: Statement.allBare statements

end

mutual

def Expr.form : Expr → Form
  | .binary left op right _ => .list op.lexeme [left.form, right.form]
  | .assign target value _ => .list "=" [.word target.text, value.form]
  | .symbol name _ => .word name.text
  | .property container name _ => .list "." [container.form, .word name.text]
  | .number value _ => .word value.plainText
  | .string value _ => .quoted value
  | .boolean value _ => .word (if value then "true" else "false")
  | .undefined _ => .word "undefined"
  | .answered question mode answers _ => .list mode.keyword (.word question.text :: Expr.forms answers)

def Expr.forms : List Expr → List Form
  | [] => []
  | expr :: exprs => expr.form :: Expr.forms exprs

end

/-- Each of the conditions after a bar. -/
def SimpleStatement.forms : List SimpleStatement → List Form
  | [] => []
  | condition :: conditions => .word "|" :: condition.expression.form :: SimpleStatement.forms conditions

mutual

def Statement.form : Statement → Form
  | .simple statement => statement.expression.form
  | .rule name conditions action _ =>
    .list "rule" (.word name.text :: (SimpleStatement.forms conditions ++ [action.form]))
  | .action name action _ => .list "action" [.word name.text, action.form]
  | .conditionSet name conditions _ => .list "conditions" (.word name.text :: SimpleStatement.forms conditions)
  | .declaration name value _ => .list "def" (.word name.text :: (value.map Expr.form).toList)
  | .command name arguments _ => .list name.text (Expr.forms arguments)
  | .evaluate target _ => .list "evaluate" [.word target.text]
  | .perform target _ => .list "do" [.word target.text]

def Block.form : Block → Form
  | ⟨statements, _⟩ => .block (Statement.forms statements)

def Statement.forms : List Statement → List Form
  | [] => []
  | statement :: statements => statement.form :: Statement.forms statements

end

section

open Form

theorem Form.textAfter_append (left right : List Form) :
    textAfter (left ++ right) = textAfter left ++ textAfter right := by
  induction left with
  | nil => rfl
  | cons item left ih => rw [List.cons_append, textAfter, textAfter, ih, List.cons_append, List.append_assoc]

mutual

theorem Expr.text_form (expr : Expr) : expr.form.text = expr.rendered.toList := by
  cases expr with
  | binary left op right span =>
      simp [form, text, textAfter, rendered, text_form left, text_form right]
  | assign target value span => simp [form, text, textAfter, rendered, text_form value]
  | property container name span => simp [form, text, textAfter, rendered, text_form container]
  | answered question mode answers span => simp [form, text, textAfter, rendered, text_forms answers]
  | _ => rfl

theorem Expr.text_forms (exprs : List Expr) : textAfter (Expr.forms exprs) = (Expr.renderedAfter exprs).toList := by
  cases exprs with
  | nil => rfl
  | cons expr exprs => simp [forms, textAfter, renderedAfter, text_form expr, text_forms exprs]

end

theorem SimpleStatement.text_forms (conditions : List SimpleStatement) :
    textAfter (SimpleStatement.forms conditions) = (SimpleStatement.renderedConditions conditions).toList := by
  rw [renderedConditions, String.toList_join]
  induction conditions with
  | nil => rfl
  | cons condition conditions ih => simp [forms, textAfter, text, ih, Expr.text_form]

mutual

theorem Statement.text_form (statement : Statement) : statement.form.text = statement.rendered.toList := by
  cases statement with
  | simple statement => exact statement.expression.text_form
  | rule name conditions action span =>
      simp [Statement.form, text, textAfter, textAfter_append, Statement.rendered, SimpleStatement.text_forms,
        Block.text_form action]
  | action name action span => simp [Statement.form, text, textAfter, Statement.rendered, Block.text_form action]
  | conditionSet name conditions span =>
      simp [Statement.form, text, textAfter, Statement.rendered, SimpleStatement.text_forms]
  | declaration name value span =>
      cases value <;> simp [Statement.form, text, textAfter, Statement.rendered, Expr.text_form]
  | command name arguments span => simp [Statement.form, text, Statement.rendered, Expr.text_forms]
  | evaluate target span => simp [Statement.form, text, textAfter, Statement.rendered]
  | perform target span => simp [Statement.form, text, textAfter, Statement.rendered]

theorem Block.text_form (block : Block) : block.form.text = block.rendered.toList := by
  cases block with
  | mk statements span =>
      simp [Block.form, text, Block.rendered, Statement.text_within statements]

theorem Statement.text_within (statements : List Statement) :
    textWithin (Statement.forms statements) = (Statement.renderedInBlock statements).toList := by
  cases statements with
  | nil => rfl
  | cons statement statements =>
      simp [Statement.forms, textWithin, Statement.renderedInBlock, Statement.text_form statement,
        Statement.text_after statements]

theorem Statement.text_after (statements : List Statement) :
    textAfter (Statement.forms statements) = (Statement.renderedAfter statements).toList := by
  cases statements with
  | nil => rfl
  | cons statement statements =>
      simp [Statement.forms, textAfter, Statement.renderedAfter, Statement.text_form statement,
        Statement.text_after statements]

end

end

namespace Expr

mutual

theorem form_bare (expr : Expr) : expr.bare.form = expr.form := by
  cases expr with
  | binary left op right span => rw [bare, form, form, form_bare left, form_bare right]
  | assign target value span => rw [bare, form, form, form_bare value, Token.bare]
  | symbol name span => rfl
  | property container name span => rw [bare, form, form, form_bare container, Token.bare]
  | number value span =>
      cases value with
      | infinite negative => cases negative <;> rfl
      | _ => rfl
  | string value span => rfl
  | boolean value span => rfl
  | undefined span => rfl
  | answered question mode answers span => rw [bare, form, form, forms_allBare answers, Token.bare]

theorem forms_allBare (exprs : List Expr) : forms (allBare exprs) = forms exprs := by
  cases exprs with
  | nil => rfl
  | cons expr exprs => rw [allBare, forms, forms, form_bare expr, forms_allBare exprs]

end

end Expr

theorem SimpleStatement.forms_map_bare (conditions : List SimpleStatement) :
    forms (conditions.map bare) = forms conditions := by
  induction conditions with
  | nil => rfl
  | cons condition conditions ih => rw [List.map_cons, forms, forms, ih, bare, Expr.form_bare]

mutual

theorem Statement.form_bare (statement : Statement) : statement.bare.form = statement.form := by
  cases statement with
  | simple statement => exact statement.expression.form_bare
  | rule name conditions action span =>
      rw [Statement.bare, Statement.form, Statement.form, SimpleStatement.forms_map_bare, Block.form_bare action,
        Token.bare]
  | action name action span => rw [Statement.bare, Statement.form, Statement.form, Block.form_bare action, Token.bare]
  | conditionSet name conditions span =>
      rw [Statement.bare, Statement.form, Statement.form, SimpleStatement.forms_map_bare, Token.bare]
  | declaration name value span =>
      have hvalue : (value.map Expr.bare).map Expr.form = value.map Expr.form := by
        cases value with
        | none => rfl
        | some value => exact congrArg some value.form_bare
      rw [Statement.bare, Statement.form, Statement.form, hvalue, Token.bare]
  | command name arguments span =>
      rw [Statement.bare, Statement.form, Statement.form, Expr.forms_allBare, Token.bare]
  | evaluate target span => rfl
  | perform target span => rfl

theorem Block.form_bare (block : Block) : block.bare.form = block.form := by
  cases block with
  | mk statements span => rw [Block.bare, Block.form, Block.form, Statement.forms_allBare statements]

theorem Statement.forms_allBare (statements : List Statement) :
    Statement.forms (Statement.allBare statements) = Statement.forms statements := by
  cases statements with
  | nil => rfl
  | cons statement statements =>
      rw [Statement.allBare, Statement.forms, Statement.forms, Statement.form_bare statement,
        Statement.forms_allBare statements]

end

end Questionnaire
