import Questionnaire.Proofs.Document.Prefix
import Questionnaire.Proofs.Grammar.Names

/-! Trees read back from their prefix forms. A form is read by the word in front, without looking at the tree that it
came from. The main statements say that what is read from the form of a sound expression or statement is that tree, but
for what no form keeps. -/

namespace Questionnaire

/-- The expression that a word stands for. -/
def Expr.ofWord (word : String) : Expr :=
  if word.toList.head?.any Lexeme.isWordStart then
    if Vocabulary.kindOf word = .identifier then .symbol ⟨.identifier, word, .origin⟩ default
    else Rule.constant word default
  else ((Double.read? word.toList).map fun value => .number value default).getD default

def Expr.name : Expr → Token
  | .symbol name _ => name
  | _ => default

/-- The expression in brackets, by the word in front of the others. -/
def Expr.ofList (head : String) (items : List Expr) : Expr :=
  match BinaryOp.ofLexeme? head, AnswerMode.ofKeyword? head, items with
  | some op, _, [left, right] => .binary left op right default
  | none, some mode, question :: answers => .answered question.name mode answers default
  | none, none, [first, second] =>
    if head = "=" then .assign first.name second default else .property first second.name default
  | _, _, _ => default

/-- The conditions among expressions that stand in turn with bars. -/
def SimpleStatement.ofBars : List Expr → List SimpleStatement
  | _ :: condition :: others => ⟨condition, default⟩ :: SimpleStatement.ofBars others
  | _ => []

/-- The statement in brackets, by the word in front of the others. -/
def Statement.ofList (head : String) (items : List Expr) (blocks : List Block) : Statement :=
  if head = "rule" then .rule items.headI.name (SimpleStatement.ofBars items.tail) (blocks.getLastD default) default
  else if head = "action" then .action items.headI.name (blocks.getLastD default) default
  else if head = "conditions" then .conditionSet items.headI.name (SimpleStatement.ofBars items.tail) default
  else if head = "def" then .declaration items.headI.name items.tail.head? default
  else if head = "evaluate" then .evaluate items.headI.name default
  else if head = "do" then .perform items.headI.name default
  else if Vocabulary.kindOf head = .callKeyword ∧ AnswerMode.ofKeyword? head = none then
    .command ⟨.callKeyword, head, .origin⟩ items default
  else .simple ⟨Expr.ofList head items, default⟩

namespace Form

mutual

/-- The expression that a form stands for. -/
def expr : Form → Expr
  | .word text => .ofWord text
  | .quoted text => .string text default
  | .list head items => .ofList head (exprs items)
  | .block _ => default

def exprs : List Form → List Expr
  | [] => []
  | item :: items => item.expr :: exprs items

end

mutual

/-- The statement that a form stands for. -/
def statement : Form → Statement
  | .word text => .simple ⟨.ofWord text, default⟩
  | .quoted text => .simple ⟨.string text default, default⟩
  | .list head items => .ofList head (exprs items) (blocks items)
  | .block _ => default

def statements : List Form → List Statement
  | [] => []
  | item :: items => item.statement :: statements items

def braced : Form → Block
  | .block items => ⟨statements items, default⟩
  | _ => default

def blocks : List Form → List Block
  | [] => []
  | item :: items => item.braced :: blocks items

end

theorem exprs_eq_map (items : List Form) : exprs items = items.map expr := by
  induction items with
  | nil => rfl
  | cons item items ih => rw [exprs, ih, List.map_cons]

theorem blocks_eq_map (items : List Form) : blocks items = items.map braced := by
  induction items with
  | nil => rfl
  | cons item items ih => rw [blocks, ih, List.map_cons]

end Form

theorem Lexeme.IsWord.head?_any {lexeme : List Char} (h : Lexeme.IsWord lexeme) :
    lexeme.head?.any Lexeme.isWordStart = true := by
  obtain ⟨c, hc, hstart⟩ := h.starts
  rw [Option.mem_def.mp hc]
  exact hstart

theorem Token.IsName.ofWord_eq {name : Token} (h : name.IsName) : Expr.ofWord name.text = .symbol name.bare default := by
  rw [Expr.ofWord, if_pos h.shaped.head?_any, if_pos h.free, Token.bare, ← h.kind]

/-- Forms behind a name. -/
theorem Token.IsName.exprs_cons {name : Token} (h : name.IsName) (items : List Form) :
    Form.exprs (.word name.text :: items) = .symbol name.bare default :: items.map Form.expr := by
  rw [Form.exprs, Form.expr, h.ofWord_eq, Form.exprs_eq_map]

namespace Double

open Numeral

theorem exists_mantissa_of_plain {significand : ℕ} {exponent : ℤ} {negative : Bool}
    (hheld : (finite negative significand exponent).Held) (hplain : (finite negative significand exponent).Plain) :
    ∃ coefficient places, Mantissa (finite negative significand exponent).plainText.toList coefficient places := by
  obtain ⟨text, coefficient, places, htext, hmantissa, -⟩ := exists_mantissa_plainText negative hheld.1
  obtain rfl : negative = false := hplain.1
  rw [htext, sign, if_neg Bool.false_ne_true, String.empty_append]
  exact ⟨coefficient, places, hmantissa⟩

theorem ofWord_plainText {value : Double} (hheld : value.Held) (hplain : value.Plain) (span : Span) :
    Expr.ofWord value.plainText = (Expr.number value span).bare := by
  cases value with
  | notANumber => exact absurd rfl hplain.2
  | infinite negative =>
      obtain rfl : negative = false := hplain.1
      rw [Expr.ofWord, if_pos (by decide), if_pos (by decide)]
      rfl
  | finite negative significand exponent =>
      obtain ⟨coefficient, places, hmantissa⟩ := exists_mantissa_of_plain hheld hplain
      obtain ⟨c, rest, hcons, hc⟩ := hmantissa.exists_head
      have hstart : Lexeme.isWordStart c = false := by
        rcases hc with hdigit | rfl
        · refine Bool.eq_false_iff.mpr fun hstart => ?_
          rw [Lexeme.isDigit_eq_false_of_isWordStart hstart] at hdigit
          cases hdigit
        · rfl
      rw [Expr.ofWord, if_neg (by simp [hcons, hstart]), read?_plainText hheld]
      rfl

end Double

namespace Expr

theorem ofList_lexeme (op : BinaryOp) (left right : Expr) :
    ofList op.lexeme [left, right] = .binary left op right default := by
  unfold ofList
  rw [BinaryOp.ofLexeme?_lexeme]

theorem ofList_keyword (mode : AnswerMode) (question : Expr) (answers : List Expr) :
    ofList mode.keyword (question :: answers) = .answered question.name mode answers default := by
  have hnone : BinaryOp.ofLexeme? mode.keyword = none := by cases mode <;> decide
  unfold ofList
  rw [AnswerMode.ofKeyword?_keyword, hnone]

theorem ofList_other {head : String} (hop : BinaryOp.ofLexeme? head = none) (hmode : AnswerMode.ofKeyword? head = none)
    (first second : Expr) : ofList head [first, second] =
      if head = "=" then .assign first.name second default else .property first second.name default := by
  unfold ofList
  rw [hop, hmode]

mutual

theorem expr_form (expr : Expr) (h : expr.Sound) : expr.form.expr = expr.bare := by
  cases expr with
  | binary left op right span =>
      obtain ⟨hleft, hright⟩ := (sound_iff _).mp h
      rw [form, Form.expr, Form.exprs, Form.exprs, Form.exprs, expr_form left hleft, expr_form right hright,
        ofList_lexeme, bare]
  | assign target value span =>
      obtain ⟨htarget, hvalue⟩ := (sound_iff _).mp h
      rw [form, Form.expr, Form.exprs, Form.exprs, Form.exprs, Form.expr, htarget.ofWord_eq, expr_form value hvalue,
        ofList_other (by decide) (by decide), if_pos rfl, bare, name]
  | symbol name span =>
      have hname : name.IsName := (sound_iff _).mp h
      rw [form, Form.expr, hname.ofWord_eq, bare]
  | property container name span =>
      obtain ⟨hname, hcontainer⟩ := (sound_iff _).mp h
      rw [form, Form.expr, Form.exprs, Form.exprs, Form.exprs, Form.expr, hname.ofWord_eq, expr_form container hcontainer,
        ofList_other (by decide) (by decide), if_neg (by decide), bare, Expr.name]
  | number value span =>
      obtain ⟨hheld, hplain⟩ := (sound_iff _).mp h
      exact Double.ofWord_plainText hheld hplain span
  | string value span => rfl
  | boolean value span => cases value <;> rfl
  | undefined span => rfl
  | answered question mode answers span =>
      obtain ⟨hquestion, hanswers⟩ := (sound_iff _).mp h
      rw [form, Form.expr, Form.exprs, Form.expr, hquestion.ofWord_eq, exprs_forms answers hanswers, ofList_keyword,
        bare, name]

theorem exprs_forms (exprs : List Expr) (h : ∀ expr ∈ exprs, expr.Sound) : Form.exprs (forms exprs) = allBare exprs := by
  cases exprs with
  | nil => rfl
  | cons expr exprs =>
      obtain ⟨hexpr, hexprs⟩ := List.forall_mem_cons.mp h
      rw [forms, Form.exprs, expr_form expr hexpr, exprs_forms exprs hexprs, allBare]

end

end Expr

namespace SimpleStatement

theorem ofBars_forms {conditions : List SimpleStatement} (h : ∀ condition ∈ conditions, condition.expression.Sound)
    {others : List Form} (hothers : ofBars (others.map Form.expr) = []) :
    ofBars ((forms conditions ++ others).map Form.expr) = conditions.map bare := by
  induction conditions with
  | nil => exact hothers
  | cons condition conditions ih =>
      obtain ⟨hcondition, hconditions⟩ := List.forall_mem_cons.mp h
      rw [forms, List.cons_append, List.cons_append, List.map_cons, List.map_cons, ofBars, ih hconditions,
        condition.expression.expr_form hcondition, List.map_cons, bare]

end SimpleStatement

/-- The words in front of expressions. -/
def Expr.heads : List String :=
  BinaryOp.all.map BinaryOp.lexeme ++ AnswerMode.all.map AnswerMode.keyword ++ ["=", "."]

namespace Statement

theorem ofList_of_head {head : String} (h : head ∈ Expr.heads) (items : List Expr) (blocks : List Block) :
    ofList head items blocks = .simple ⟨.ofList head items, default⟩ := by
  have hall : ∀ head ∈ Expr.heads, head ∉ ["rule", "action", "conditions", "def", "evaluate", "do"] ∧
      ¬(Vocabulary.kindOf head = .callKeyword ∧ AnswerMode.ofKeyword? head = none) := by decide
  obtain ⟨hword, hcall⟩ := hall head h
  simp only [List.mem_cons, List.not_mem_nil, or_false, not_or] at hword
  obtain ⟨hrule, haction, hconditions, hdef, hevaluate, hperform⟩ := hword
  rw [ofList, if_neg hrule, if_neg haction, if_neg hconditions, if_neg hdef, if_neg hevaluate, if_neg hperform,
    if_neg hcall]

theorem ofList_of_command {name : Token} (h : name.IsCommand) (items : List Expr) (blocks : List Block) :
    ofList name.text items blocks = .command name.bare items default := by
  have hall : ∀ word ∈ ["rule", "action", "conditions", "def"], Vocabulary.kindOf word ≠ .callKeyword := by decide
  have hword : ∀ word ∈ ["rule", "action", "conditions", "def"], name.text ≠ word :=
    fun word hmem heq => hall word hmem (heq ▸ h.call)
  simp only [List.forall_mem_cons] at hword
  obtain ⟨hrule, haction, hconditions, hdef, -⟩ := hword
  rw [ofList, if_neg hrule, if_neg haction, if_neg hconditions, if_neg hdef, if_neg h.evaluate, if_neg h.perform,
    if_pos ⟨h.call, h.mode⟩, Token.bare, ← h.kind]

/-- The form of an expression is read as the expression by itself. -/
theorem statement_form_expr {expr : Expr} (h : expr.Sound) : expr.form.statement = .simple ⟨expr.bare, default⟩ := by
  rw [← expr.expr_form h]
  cases expr with
  | binary left op right span => exact ofList_of_head (by cases op <;> decide) _ _
  | assign target value span => exact ofList_of_head (by decide) _ _
  | property container name span => exact ofList_of_head (by decide) _ _
  | answered question mode answers span => exact ofList_of_head (by cases mode <;> decide) _ _
  | symbol name span => rfl
  | number value span => rfl
  | string value span => rfl
  | boolean value span => rfl
  | undefined span => rfl

end Statement

mutual

theorem Statement.statement_form (statement : Statement) (h : statement.Sound) :
    statement.form.statement = statement.bare := by
  cases statement with
  | simple statement =>
      have hexpr : statement.expression.Sound := (Statement.sound_iff _).mp h
      exact Statement.statement_form_expr hexpr
  | rule name conditions action span =>
      obtain ⟨hname, hconditions, haction⟩ := (Statement.sound_iff _).mp h
      have hbars : SimpleStatement.ofBars ((SimpleStatement.forms conditions ++ [action.form]).map Form.expr) =
          conditions.map SimpleStatement.bare := SimpleStatement.ofBars_forms hconditions rfl
      have hblock : (Form.blocks (.word name.text :: (SimpleStatement.forms conditions ++ [action.form]))).getLastD
          default = action.bare := by
        rw [Form.blocks_eq_map, List.map_cons, List.map_append, List.map_singleton, Block.braced_form action haction,
          ← List.cons_append, List.getLastD_concat]
      rw [Statement.form, Form.statement, hname.exprs_cons, Statement.ofList, if_pos rfl, hblock, List.tail_cons, hbars]
      rfl
  | action name action span =>
      obtain ⟨hname, haction⟩ := (Statement.sound_iff _).mp h
      rw [Statement.form, Form.statement, hname.exprs_cons, Statement.ofList, if_neg (by decide), if_pos rfl,
        Form.blocks, Form.blocks, Form.blocks, Block.braced_form action haction]
      rfl
  | conditionSet name conditions span =>
      obtain ⟨hname, hconditions⟩ := (Statement.sound_iff _).mp h
      have hbars : SimpleStatement.ofBars ((SimpleStatement.forms conditions ++ []).map Form.expr) =
          conditions.map SimpleStatement.bare := SimpleStatement.ofBars_forms hconditions rfl
      rw [List.append_nil] at hbars
      rw [Statement.form, Form.statement, hname.exprs_cons, Statement.ofList, if_neg (by decide), if_neg (by decide),
        if_pos rfl, List.tail_cons, hbars]
      rfl
  | declaration name value span =>
      obtain ⟨hname, hvalue⟩ := (Statement.sound_iff _).mp h
      have hread : ((value.map Expr.form).toList.map Form.expr).head? = value.map Expr.bare := by
        cases value with
        | none => rfl
        | some value => exact congrArg some (value.expr_form (hvalue value rfl))
      rw [Statement.form, Form.statement, hname.exprs_cons, Statement.ofList, if_neg (by decide), if_neg (by decide),
        if_neg (by decide), if_pos rfl, List.tail_cons, hread]
      rfl
  | command name arguments span =>
      obtain ⟨hname, harguments⟩ := (Statement.sound_iff _).mp h
      rw [Statement.form, Form.statement, Expr.exprs_forms arguments harguments, Statement.ofList_of_command hname,
        Statement.bare]
  | evaluate target span =>
      have htarget : target.IsName := (Statement.sound_iff _).mp h
      rw [Statement.form, Form.statement, htarget.exprs_cons]
      rfl
  | perform target span =>
      have htarget : target.IsName := (Statement.sound_iff _).mp h
      rw [Statement.form, Form.statement, htarget.exprs_cons]
      rfl

theorem Block.braced_form (block : Block) (h : block.Sound) : block.form.braced = block.bare := by
  cases block with
  | mk statements span =>
      have hstatements : ∀ statement ∈ statements, statement.Sound := (Block.sound_iff _).mp h
      rw [Block.form, Form.braced, Statement.statements_forms statements hstatements, Block.bare]

theorem Statement.statements_forms (statements : List Statement) (h : ∀ statement ∈ statements, statement.Sound) :
    Form.statements (Statement.forms statements) = Statement.allBare statements := by
  cases statements with
  | nil => rfl
  | cons statement statements =>
      obtain ⟨hfirst, hmore⟩ := List.forall_mem_cons.mp h
      rw [Statement.forms, Form.statements, Statement.statement_form statement hfirst,
        Statement.statements_forms statements hmore, Statement.allBare]

end

/-- The form of an expression keeps all that the bare expression does, and no more. -/
theorem Expr.form_eq_iff {left right : Expr} (hleft : left.Sound) (hright : right.Sound) :
    left.form = right.form ↔ left.bare = right.bare := by
  constructor
  · intro h
    rw [← left.expr_form hleft, h, right.expr_form hright]
  · intro h
    rw [← left.form_bare, h, right.form_bare]

/-- The form of a statement keeps all that the bare statement does, and no more. -/
theorem Statement.form_eq_iff {left right : Statement} (hleft : left.Sound) (hright : right.Sound) :
    left.form = right.form ↔ left.bare = right.bare := by
  constructor
  · intro h
    rw [← left.statement_form hleft, h, right.statement_form hright]
  · intro h
    rw [← left.form_bare, h, right.form_bare]

end Questionnaire
