import Questionnaire.Proofs.Grammar.Parallel

/-! The rules of the grammar do the same on two streams that correspond. Levels of brackets are tied together by
induction, as they are in the rules. -/

namespace Questionnaire

namespace Rule

variable {α : Type} {v : Variation} {room budget : Nat} {seen : Prop}

/-- The rule for what stands between brackets, if one more may be opened. -/
def ParallelWithin (v : Variation) (room budget : Nat) : Prop :=
  ∀ below, room = below + 1 →
    Parallel v True True below budget (Expr.relocate v.move) (expression room) (expression room)

theorem parallelOffers_further {inner : Rule Expr}
    (h : Parallel v True True room budget (Expr.relocate v.move) inner inner) :
    ParallelOffers v True room budget (Expr.relocate v.move) (furtherOffer inner) (furtherOffer inner) := by
  intro token
  unfold furtherOffer
  rw [Token.relocate_spells]
  split
  · exact .some (parallel_bind parallel_shift fun _ => h)
  · exact .none

theorem parallel_arguments (h : ParallelWithin v room budget) :
    Parallel v True True room budget (List.map (Expr.relocate v.move)) (arguments (expression room))
      (arguments (expression room)) := by
  refine parallel_bracketed fun below hbelow => ?_
  have hexpr := h below hbelow
  refine parallel_bind (parallel_expectWord _ _) fun _ => parallel_current_bind fun token => ?_
  have hclose (answers : List Expr) : Parallel v True True below budget (List.map (Expr.relocate v.move))
      (do let _ ← expectWord .punctuation ")"; pure answers)
      (do let _ ← expectWord .punctuation ")"; pure (answers.map (Expr.relocate v.move))) :=
    parallel_bind (parallel_expectWord _ _) fun _ => parallel_pure rfl
  refine parallel_ite .rfl (parallel_bind (parallel_pure rfl) hclose) (parallel_bind hexpr fun first => ?_)
  have hothers : Parallel v True True below budget (List.map (Expr.relocate v.move))
      (repeatWhile (furtherOffer (expression room))) (repeatWhile (furtherOffer (expression room))) :=
    parallel_repeatWhile (parallelOffers_further hexpr)
      (soundRounds_further (soundWithin_expression room budget below hbelow))
  exact parallel_bind hothers fun others => parallel_bind (parallel_pure rfl) hclose

theorem parallelOffers_member :
    ParallelOffers v True room budget (Token.relocate v.move) memberOffer memberOffer := by
  intro token
  unfold memberOffer
  rw [Token.relocate_spells]
  split
  · refine .some (parallel_bind parallel_charge fun _ => parallel_bind parallel_shift fun _ => ?_)
    refine parallel_current_bind fun name => parallel_ite .rfl ?_ (parallel_refuse _)
    exact parallel_bind parallel_shift fun _ => parallel_pure rfl
  · exact .none

theorem parallel_withMembers (container : Expr) :
    Parallel v True True room budget (Expr.relocate v.move) (withMembers container)
      (withMembers (container.relocate v.move)) := by
  have hmembers : Parallel v True True room budget (List.map (Token.relocate v.move)) members members :=
    parallel_repeatWhile parallelOffers_member soundRounds_member
  refine parallel_ite (by rw [Expr.isReference_relocate]) ?_ (parallel_pure rfl)
  exact parallel_bind hmembers fun names => parallel_pure (Expr.foldl_property_relocate container names).symm

theorem parallel_group (h : ParallelWithin v room budget) :
    Parallel v True True room budget (Expr.relocate v.move) (group (expression room)) (group (expression room)) := by
  refine parallel_bracketed fun below hbelow => parallel_current_bind fun first => ?_
  refine parallel_bind parallel_shift fun _ => parallel_bind (h below hbelow) fun expr => ?_
  exact parallel_bind (parallel_expectWord _ _) fun last => parallel_pure (Expr.withSpan_relocate expr _).symm

theorem parallel_number : Parallel v True True room budget (Expr.relocate v.move) number number := by
  refine parallel_current_bind fun token => parallel_bind parallel_shift fun _ => ?_
  rw [Token.relocate_text]
  cases Double.read? token.text.toList with
  | none => exact parallel_throw _ _
  | some value => exact parallel_pure rfl

theorem parallel_answerMode : Parallel v True True room budget id answerMode answerMode := by
  refine parallel_current_bind fun token => ?_
  rw [Token.relocate_text]
  cases AnswerMode.ofKeyword? token.text with
  | none => exact parallel_refuseUnexpected
  | some mode =>
      exact parallel_ite .rfl (parallel_bind parallel_shift fun _ => parallel_pure rfl) parallel_refuseUnexpected

theorem parallel_answered (h : ParallelWithin v room budget) :
    Parallel v True True room budget (Expr.relocate v.move) (answered (expression room))
      (answered (expression room)) := by
  refine parallel_bind (parallel_expectWord _ _) fun first => parallel_bind (parallel_expectWord _ _) fun _ => ?_
  refine parallel_bind (parallel_expect (by decide)) fun question => parallel_bind parallel_answerMode fun mode => ?_
  refine parallel_bind (parallel_arguments h) fun answers => parallel_bind (parallel_spanSince first) fun span => ?_
  exact parallel_pure (by rw [Expr.relocate, Expr.relocateAll_eq_map]; rfl)

theorem parallel_operand (h : ParallelWithin v room budget) :
    Parallel v True True room budget (Expr.relocate v.move) (operand (expression room))
      (operand (expression room)) := by
  refine parallel_current_bind fun token => ?_
  rw [Token.relocate_kind, Token.relocate_text]
  cases token.kind with
  | punctuation =>
      exact parallel_ite .rfl (parallel_bind (parallel_group h) parallel_withMembers) parallel_refuseUnexpected
  | identifier => exact parallel_bind parallel_shift fun _ => parallel_withMembers (.symbol token (.single token))
  | number => exact parallel_number
  | string => exact parallel_bind parallel_shift fun _ => parallel_pure rfl
  | valueKeyword =>
      exact parallel_bind parallel_shift fun _ => parallel_pure (Expr.constant_relocate token.text (.single token)).symm
  | keyword => exact parallel_ite .rfl (parallel_answered h) parallel_refuseUnexpected
  | _ => exact parallel_refuseUnexpected

theorem parallelOffers_link (h : ParallelWithin v room budget) :
    ParallelOffers v True room budget (BinaryOp.relocateLink v.move) (linkOffer (expression room))
      (linkOffer (expression room)) := by
  intro token
  unfold linkOffer
  rw [Token.relocate_kind, Token.relocate_text]
  split
  · cases BinaryOp.ofLexeme? token.text with
    | none => exact .none
    | some op =>
        refine .some (parallel_bind parallel_charge fun _ => parallel_bind parallel_shift fun _ => ?_)
        exact parallel_bind (parallel_operand h) fun _ => parallel_pure rfl
  · exact .none

theorem parallel_operation (h : ParallelWithin v room budget) :
    Parallel v True True room budget (Expr.relocate v.move) (operation (expression room))
      (operation (expression room)) := by
  have hlinks : Parallel v True True room budget (List.map (BinaryOp.relocateLink v.move)) (links (expression room))
      (links (expression room)) :=
    parallel_repeatWhile (parallelOffers_link h) (soundRounds_link (soundWithin_expression room budget))
  refine parallel_bind (parallel_operand h) fun first => parallel_bind hlinks fun operators => parallel_pure ?_
  rw [Chain.ofLinks_relocate, Chain.expr_relocate]

theorem parallel_assignment (h : ParallelWithin v room budget) :
    Parallel v True True room budget (Expr.relocate v.move) (assignment (expression room))
      (assignment (expression room)) := by
  refine parallel_bind (parallel_operation h) fun left => parallel_current_bind fun token => ?_
  refine parallel_ite .rfl ?_ (parallel_pure rfl)
  cases left with
  | symbol target span =>
      refine parallel_bind parallel_shift fun _ => parallel_bind (parallel_operation h) fun value => parallel_pure ?_
      rw [Expr.relocate, Expr.span_relocate]
      rfl
  | _ => exact parallel_refuse _

theorem parallel_expression (room : Nat) :
    Parallel v True True room budget (Expr.relocate v.move) (expression (room + 1)) (expression (room + 1)) := by
  induction room with
  | zero => exact parallel_assignment fun below h => by omega
  | succ room ih =>
      refine parallel_assignment fun below h => ?_
      obtain rfl := Nat.succ.inj h
      exact ih

theorem parallelWithin (room : Nat) : ParallelWithin v room budget := by
  intro below h
  subst h
  exact parallel_expression below

theorem parallel_simpleStatement {expr : Rule Expr}
    (h : Parallel v True True room budget (Expr.relocate v.move) expr expr) :
    Parallel v True True room budget (SimpleStatement.relocate v.move) (simpleStatement expr)
      (simpleStatement expr) := by
  refine parallel_current_bind fun first => parallel_bind (parallel_budgeted h) fun expression => ?_
  exact parallel_bind (parallel_spanSince first) fun span => parallel_pure rfl

theorem parallel_embedded :
    Parallel v True True room budget (SimpleStatement.relocate v.move) (embedded (expression room))
      (embedded (expression room)) := by
  refine parallel_bracketed fun below hbelow => parallel_bind (parallel_expect (by decide)) fun first => ?_
  refine parallel_bind (parallel_budgeted (parallelWithin room below hbelow)) fun expression => ?_
  refine parallel_bind (parallel_expect (by decide)) fun _ => parallel_bind (parallel_spanSince first) fun span => ?_
  exact parallel_pure rfl

/-- Rounds of one rule up to a token that closes them. -/
theorem parallel_until (closes : Token → Prop) [DecidablePred closes] (what : String) {rule : Rule α} {f : α → α}
    {derives : α → List Token → Prop} {cost : α → Nat}
    (hcloses : ∀ token, closes (token.relocate v.move) ↔ closes token)
    (h : Parallel v True True room budget f rule rule) (hsound : Sound room budget derives cost rule)
    (hne : ∀ value tokens, derives value tokens → tokens ≠ []) :
    Parallel v True True room budget (List.map f) (repeatWhile (untilOffer closes what rule))
      (repeatWhile (untilOffer closes what rule)) := by
  refine parallel_repeatWhile (fun token => ?_) (soundRounds_until closes what hsound hne)
  unfold untilOffer
  rw [Token.relocate_kind]
  by_cases hclose : closes token
  · rw [if_pos hclose, if_pos ((hcloses token).mpr hclose)]
    exact .none
  · rw [if_neg hclose, if_neg (mt (hcloses token).mp hclose)]
    split
    · exact .some (parallel_refuse _)
    · exact .some h

/-- The rule for the statements of a block, if one more bracket may be opened. -/
def ParallelStatement (v : Variation) (room budget : Nat) : Prop :=
  ∀ below, room = below + 1 →
    Parallel v True True below budget (Statement.relocate v.move) (statement room) (statement room)

theorem parallel_block (h : ParallelStatement v room budget) :
    Parallel v True True room budget (Block.relocate v.move) (block (statement room)) (block (statement room)) := by
  refine parallel_bracketed fun below hbelow => parallel_bind (parallel_expectWord _ _) fun first => ?_
  have hstatements := parallel_until (fun token => token.spells .punctuation "\x7d" = true) "\x7d" (fun _ => .rfl)
    (h below hbelow) (soundStatement room budget below hbelow) fun _ _ => Logic.ne_nil
  refine parallel_bind hstatements fun statements => parallel_bind (parallel_expectWord _ _) fun _ => ?_
  refine parallel_bind (parallel_spanSince first) fun span => parallel_pure ?_
  rw [Block.relocate, Statement.relocateAll_eq_map]

theorem parallel_condition {expr : Rule Expr}
    (h : Parallel v True True room budget (Expr.relocate v.move) expr expr) :
    Parallel v True True room budget (SimpleStatement.relocate v.move) (condition expr) (condition expr) :=
  parallel_bind (parallel_expectWord _ _) fun _ => parallel_simpleStatement h

theorem parallel_conditions (kind : TokenKind) (word : String) :
    Parallel v True True room budget (List.map (SimpleStatement.relocate v.move))
      (conditions (assignment (expression room)) kind word)
      (conditions (assignment (expression room)) kind word) := by
  have hcondition : Parallel v True True room budget (SimpleStatement.relocate v.move)
      (condition (assignment (expression room))) (condition (assignment (expression room))) :=
    parallel_condition (parallel_assignment (parallelWithin room))
  have hoffers : ParallelOffers v True room budget (SimpleStatement.relocate v.move)
      (conditionOffer (assignment (expression room)) kind word)
      (conditionOffer (assignment (expression room)) kind word) := by
    intro token
    unfold conditionOffer
    rw [Token.relocate_spells]
    split
    · exact .none
    · exact .some hcondition
  have hsound := soundRounds_condition kind word (sound_assignment (soundWithin_expression room budget))
  refine parallel_bind hcondition fun first => parallel_bind (parallel_repeatWhile hoffers hsound) fun others => ?_
  exact parallel_pure rfl

theorem parallel_ruleDefinition (h : ParallelStatement v room budget) :
    Parallel v True True room budget (Statement.relocate v.move)
      (ruleDefinition (assignment (expression room)) (statement room))
      (ruleDefinition (assignment (expression room)) (statement room)) := by
  refine parallel_bind (parallel_expectWord _ _) fun first => parallel_bind (parallel_expect (by decide)) fun name => ?_
  refine parallel_bind (parallel_expectWord _ _) fun _ => parallel_bind (parallel_conditions _ _) fun conditions => ?_
  refine parallel_bind (parallel_block h) fun action => parallel_bind (parallel_spanSince first) fun span => ?_
  exact parallel_pure rfl

theorem parallel_actionDefinition (h : ParallelStatement v room budget) :
    Parallel v True True room budget (Statement.relocate v.move) (actionDefinition (statement room))
      (actionDefinition (statement room)) := by
  refine parallel_bind (parallel_expectWord _ _) fun first => parallel_bind (parallel_expect (by decide)) fun name => ?_
  refine parallel_bind (parallel_block h) fun action => parallel_bind (parallel_spanSince first) fun span => ?_
  exact parallel_pure rfl

theorem parallel_conditionSet :
    Parallel v True True room budget (Statement.relocate v.move) (conditionSet (assignment (expression room)))
      (conditionSet (assignment (expression room))) := by
  refine parallel_bind (parallel_expectWord _ _) fun first => parallel_bind (parallel_expect (by decide)) fun name => ?_
  refine parallel_bind (parallel_expectWord _ _) fun _ => parallel_bind (parallel_conditions _ _) fun conditions => ?_
  refine parallel_bind (parallel_expectWord _ _) fun _ => parallel_bind (parallel_spanSince first) fun span => ?_
  exact parallel_pure rfl

theorem parallel_declaration :
    Parallel v True True room budget (Statement.relocate v.move) (declaration (operation (expression room)))
      (declaration (operation (expression room))) := by
  refine parallel_bind (parallel_expectWord _ _) fun first => parallel_bind (parallel_expect (by decide)) fun name => ?_
  refine parallel_bind (parallel_passWord _ _) fun passed => ?_
  have hend (value : Option Expr) : Parallel v True True room budget (Statement.relocate v.move)
      (do return .declaration name value (← spanSince first))
      (do
        let span ← spanSince (first.relocate v.move)
        return .declaration (name.relocate v.move) (value.map (Expr.relocate v.move)) span) :=
    parallel_bind (parallel_spanSince first) fun _ => parallel_pure rfl
  have hvalue : Parallel v True True room budget (Expr.relocate v.move) (budgeted (operation (expression room)))
      (budgeted (operation (expression room))) := parallel_budgeted (parallel_operation (parallelWithin room))
  refine parallel_ite .rfl (parallel_bind (parallel_map hvalue fun _ => rfl) hend) ?_
  exact parallel_bind (parallel_pure rfl) hend

theorem parallel_invocation {form : Token → Span → Statement}
    (hform : ∀ target span, (form target span).relocate v.move =
      form (target.relocate v.move) (span.relocate v.move)) :
    Parallel v True True room budget (Statement.relocate v.move) (invocation form) (invocation form) := by
  refine parallel_current_bind fun first => parallel_bind parallel_shift fun _ => ?_
  refine parallel_bind (parallel_expect (by decide)) fun target => ?_
  exact parallel_bind (parallel_spanSince first) fun span => parallel_pure (hform target span)

theorem parallel_command :
    Parallel v True True room budget (Statement.relocate v.move) (command (arguments (expression room)))
      (command (arguments (expression room))) := by
  refine parallel_bind (parallel_expect (by decide)) fun name => ?_
  refine parallel_bind (parallel_budgeted (parallel_arguments (parallelWithin room))) fun arguments => ?_
  exact parallel_bind (parallel_spanSince name) fun span => parallel_pure rfl

theorem parallel_bareStatement (h : ParallelStatement v room budget) :
    Parallel v True True room budget (Statement.relocate v.move) (bareStatement (expression room) (statement room))
      (bareStatement (expression room) (statement room)) := by
  refine parallel_current_bind fun token => ?_
  have hsimple : Parallel v True True room budget (Statement.relocate v.move)
      (Statement.simple <$> simpleStatement (assignment (expression room)))
      (Statement.simple <$> simpleStatement (assignment (expression room))) :=
    parallel_map (parallel_simpleStatement (parallel_assignment (parallelWithin room))) fun _ => rfl
  rw [Token.relocate_kind, Token.relocate_text]
  cases token.kind with
  | string => exact hsimple
  | number => exact hsimple
  | valueKeyword => exact hsimple
  | identifier => exact hsimple
  | punctuation => exact parallel_ite .rfl hsimple parallel_refuseUnexpected
  | callKeyword =>
      refine parallel_ite .rfl (parallel_invocation fun _ _ => rfl) ?_
      refine parallel_ite .rfl (parallel_invocation fun _ _ => rfl) ?_
      exact parallel_ite .rfl parallel_refuseUnexpected parallel_command
  | keyword =>
      refine parallel_ite .rfl (parallel_ruleDefinition h) (parallel_ite .rfl (parallel_actionDefinition h) ?_)
      refine parallel_ite .rfl parallel_conditionSet (parallel_ite .rfl parallel_declaration ?_)
      exact parallel_ite .rfl hsimple parallel_refuseUnexpected
  | _ => exact parallel_refuseUnexpected

theorem parallel_statement (room : Nat) :
    Parallel v True True room budget (Statement.relocate v.move) (statement (room + 1)) (statement (room + 1)) := by
  have hsucc (room : Nat) (h : ParallelStatement v room budget) :
      Parallel v True True room budget (Statement.relocate v.move) (statement (room + 1)) (statement (room + 1)) :=
    parallel_bind (parallel_bareStatement h) fun _ => parallel_bind (parallel_passWord _ _) fun _ => parallel_pure rfl
  induction room with
  | zero => exact hsucc 0 fun below h => by omega
  | succ room ih =>
      refine hsucc _ fun below h => ?_
      obtain rfl := Nat.succ.inj h
      exact ih

theorem parallel_attributeValue :
    Parallel v True True room budget (AttributeValue.relocate v.move) (attributeValue (embedded (expression room)))
      (attributeValue (embedded (expression room))) := by
  refine parallel_current_bind fun token => ?_
  rw [Token.relocate_kind]
  cases token.kind with
  | string => exact parallel_bind parallel_shift fun _ => parallel_pure rfl
  | embeddedOpen => exact parallel_map parallel_embedded fun _ => rfl
  | _ => exact parallel_refuse _

theorem parallel_oneAttribute :
    Parallel v True True room budget (Attribute.relocate v.move) (oneAttribute (embedded (expression room)))
      (oneAttribute (embedded (expression room))) := by
  refine parallel_current_bind fun name => ?_
  rw [Token.relocate_kind]
  cases name.kind with
  | identifier => exact parallel_bind parallel_shift fun _ => parallel_pure rfl
  | attributeKeyword =>
      refine parallel_bind parallel_shift fun _ => parallel_bind (parallel_passWord _ _) fun passed => ?_
      have hend (value : Option AttributeValue) : Parallel v True True room budget (Attribute.relocate v.move)
          (do return ⟨name.text, value, false, ← spanSince name⟩)
          (do
            let span ← spanSince (name.relocate v.move)
            return ⟨name.text, value.map (AttributeValue.relocate v.move), false, span⟩) :=
        parallel_bind (parallel_spanSince name) fun _ => parallel_pure rfl
      refine parallel_ite .rfl (parallel_bind (parallel_map parallel_attributeValue fun _ => rfl) hend) ?_
      exact parallel_bind (parallel_pure rfl) hend
  | _ => exact parallel_refuse _

theorem parallel_attributes {left right : TokenKind} (hleft : left ≠ .endOfInput) (hright : right ≠ .endOfInput) :
    Parallel v seen True room budget (List.map (Attribute.relocate v.move))
      (attributes (embedded (expression room)) left right)
      (attributes (embedded (expression room)) left right) := by
  have hsound := sound_oneAttribute (sound_embedded (soundWithin_expression room budget))
  have hattributes := parallel_until (fun token => token.kind = right) right.description (fun _ => .rfl)
    (@parallel_oneAttribute v room budget) hsound fun _ _ => attributed_ne_nil
  refine parallel_bind (parallel_expect hleft) fun _ => parallel_bind hattributes fun attributes => ?_
  exact parallel_bind (parallel_expect hright) fun _ => parallel_pure rfl

theorem parallel_texts :
    Parallel v True True room budget (List.map (TextPart.relocate v.move)) (texts (embedded (expression room)))
      (texts (embedded (expression room))) := by
  have hoffers : ParallelOffers v True room budget (TextPart.relocate v.move)
      (textOffer (embedded (expression room))) (textOffer (embedded (expression room))) := by
    intro token
    unfold textOffer
    rw [Token.relocate_kind]
    cases token.kind with
    | textRun => exact .some (parallel_bind parallel_shift fun _ => parallel_pure rfl)
    | embeddedOpen => exact .some (parallel_map parallel_embedded fun _ => rfl)
    | _ => exact .none
  exact parallel_repeatWhile hoffers (soundRounds_text (sound_embedded (soundWithin_expression room budget)))

theorem parallel_answerOption :
    Parallel v True True room budget (AnswerOption.relocate v.move) (answerOption (embedded (expression room)))
      (answerOption (embedded (expression room))) := by
  refine parallel_current_bind fun first => parallel_bind (parallel_attributes (by decide) (by decide)) fun _ => ?_
  exact parallel_bind parallel_texts fun _ => parallel_bind (parallel_spanSince first) fun _ => parallel_pure rfl

theorem partition_relocate (move : Position → Position) (options : List AnswerOption) :
    (options.map (AnswerOption.relocate move)).partition AnswerOption.isColumn =
      ((options.partition AnswerOption.isColumn).1.map (AnswerOption.relocate move),
        (options.partition AnswerOption.isColumn).2.map (AnswerOption.relocate move)) := by
  rw [partition_isColumn, partition_isColumn, List.filter_map, List.filter_map]
  simp only [Function.comp_def, AnswerOption.isColumn_relocate]

theorem parallel_question :
    Parallel v seen True room budget (Component.relocate v.move) (question (embedded (expression room)))
      (question (embedded (expression room))) := by
  have hoffers : ParallelOffers v True room budget (AnswerOption.relocate v.move)
      (optionOffer (embedded (expression room))) (optionOffer (embedded (expression room))) := by
    intro token
    have hopens : opensComponent (token.relocate v.move) = opensComponent token := rfl
    unfold optionOffer
    rw [hopens, Token.relocate_kind]
    split
    · exact .none
    · exact .some parallel_answerOption
  have hoptions := parallel_repeatWhile hoffers
    (soundRounds_option (sound_embedded (soundWithin_expression room budget)))
  refine parallel_current_bind fun first => parallel_bind (parallel_attributes (by decide) (by decide)) fun _ => ?_
  refine parallel_current_bind fun token => parallel_ite .rfl ?_ ?_
  · exact parallel_bind (parallel_spanSince first) fun _ => parallel_pure rfl
  · refine parallel_bind parallel_texts fun texts => parallel_bind hoptions fun options => ?_
    rw [partition_relocate]
    exact parallel_bind (parallel_spanSince first) fun _ => parallel_pure rfl

theorem parallel_interlude :
    Parallel v seen True room budget (Component.relocate v.move) (interlude (statement (room + 1)))
      (interlude (statement (room + 1))) := by
  have hstatements := parallel_until (fun token => token.kind = .logicClose) TokenKind.logicClose.description
    (fun _ => .rfl) (@parallel_statement v budget room) (sound_statement room budget) fun _ _ => Logic.ne_nil
  refine parallel_bind (parallel_expect (by decide)) fun first => parallel_bind hstatements fun statements => ?_
  refine parallel_bind (parallel_expect (by decide)) fun _ => parallel_bind (parallel_spanSince first) fun span => ?_
  exact parallel_pure rfl

theorem parallel_component :
    Parallel v seen True room budget (Component.relocate v.move) (component room) (component room) := by
  refine parallel_current_bind fun token => ?_
  rw [Token.relocate_kind]
  cases token.kind with
  | questionOpen => exact parallel_question
  | logicOpen => exact parallel_interlude
  | _ => exact parallel_refuseUnexpected

theorem parallelOffers_component :
    ParallelOffers v seen room budget (Component.relocate v.move) (componentOffer room) (componentOffer room) := by
  intro token
  unfold componentOffer
  rw [Token.relocate_kind]
  split
  · exact .none
  · exact .some (parallel_component.seen_of_imp fun _ => trivial)

theorem parallel_components :
    Parallel v seen seen room budget (List.map (Component.relocate v.move)) (repeatWhile (componentOffer room))
      (repeatWhile (componentOffer room)) := parallel_repeatWhile parallelOffers_component soundRounds_component

/-- Whole documents, from the first token on. No token has been taken before it. -/
theorem agrees_document {limits : Limits} {first : Token} {tokens before : List Token} {last : Token}
    (hstream : (first :: tokens).map .ok ++ v.rest = (before ++ [last]).map .ok) (hlast : last.kind = .endOfInput) :
    Agrees v False (Document.relocate v.move)
      (document limits.maxNesting (.ofItems limits ((first :: tokens).map .ok ++ v.rest)))
      (document limits.maxNesting
        (.ofItems limits ((first :: tokens).map (fun token => .ok (token.relocate v.move)) ++ v.rest'))) := by
  have hdocument : Parallel v False False limits.maxNesting limits.maxExpressionDepth (Document.relocate v.move)
      (do return ⟨← repeatWhile (componentOffer limits.maxNesting)⟩)
      (do return ⟨← repeatWhile (componentOffer limits.maxNesting)⟩) :=
    parallel_bind parallel_components fun components => parallel_pure rfl
  have hstart (first : Token) (items : List Item) : start (.ofItems limits (.ok first :: items)) =
      .ok () ⟨limits, items, first, Parser.placeholder, true, 0, 0⟩ := rfl
  have hroom (first : Token) (items : List Item) :
      Parser.HasRoom ⟨limits, items, first, Parser.placeholder, true, 0, 0⟩ limits.maxNesting
        limits.maxExpressionDepth := ⟨Nat.zero_add _, rfl⟩
  have hbegun : Agrees v False id (start (.ofItems limits (.ok first :: (tokens.map .ok ++ v.rest))))
      (start (.ofItems limits (.ok (first.relocate v.move) ::
        (tokens.map (fun token => .ok (token.relocate v.move)) ++ v.rest')))) :=
    .ok ⟨⟨tokens, rfl, rfl⟩, rfl, nofun, rfl, rfl, rfl, ⟨before, last, hstream, hlast⟩⟩
  refine agrees_bind hbegun (fun value q hrule => ?_) fun value q q' hrule hq => ?_
  · cases (hstart first _).symm.trans hrule
    exact hdocument.leads _ (hroom _ _)
  · cases (hstart first _).symm.trans hrule
    exact hdocument.agrees _ _ (hroom _ _) hq

end Rule

namespace Parser

variable {limits : Limits} {last : Token} {tokens before : List Token}

/-- What is read does not depend on where the tokens stand, and a fault is found at the same one of them. -/
theorem parse_relocate (move : Position → Position) (hlast : last.kind = .endOfInput) :
    (ofItems limits (((before ++ [last]).map (Token.relocate move)).map .ok)).parse.1 =
      relocateOutcome move (Document.relocate move) (ofItems limits ((before ++ [last]).map .ok)).parse.1 := by
  obtain ⟨first, tokens, hcons⟩ : ∃ first tokens, before ++ [last] = first :: tokens :=
    List.exists_cons_of_ne_nil (by simp)
  have hagrees : Agrees ⟨move, [], []⟩ False (Document.relocate move)
      (Rule.document limits.maxNesting (.ofItems limits ((first :: tokens).map .ok ++ [])))
      (Rule.document limits.maxNesting
        (.ofItems limits ((first :: tokens).map (fun token => .ok (token.relocate move)) ++ []))) :=
    Rule.agrees_document (by rw [← hcons, List.append_nil]) hlast
  rw [List.append_nil, List.append_nil] at hagrees
  rw [hcons, parse_fst, parse_fst, List.map_map]
  change Agrees _ _ _ _ (Rule.document _ (.ofItems limits ((first :: tokens).map (Except.ok ∘ Token.relocate move))))
    at hagrees
  generalize Rule.document limits.maxNesting (.ofItems limits ((first :: tokens).map .ok)) = result at hagrees ⊢
  generalize Rule.document limits.maxNesting
    (.ofItems limits ((first :: tokens).map (.ok ∘ Token.relocate move))) = result' at hagrees ⊢
  cases hagrees with
  | ok => rfl
  | error => rfl
  | beyond h => cases h

/-- A fault that is found before the tokens go on is found whatever they go on with. -/
theorem parse_append {rest rest' : List Item} {diagnostic : Diagnostic} {after : Parser}
    (hstream : tokens.map .ok ++ rest = (before ++ [last]).map .ok) (hlast : last.kind = .endOfInput)
    (h : Rule.document limits.maxNesting (.ofItems limits (tokens.map .ok ++ rest)) = .error diagnostic after)
    (hne : tokens ≠ []) (hafter : rest.length ≤ after.items.length) :
    (ofItems limits (tokens.map .ok ++ rest')).parse.1 = .error diagnostic := by
  obtain ⟨first, tokens, rfl⟩ := List.exists_cons_of_ne_nil hne
  have hagrees : Agrees ⟨id, rest, rest'⟩ False (Document.relocate id)
      (Rule.document limits.maxNesting (.ofItems limits ((first :: tokens).map .ok ++ rest)))
      (Rule.document limits.maxNesting (.ofItems limits ((first :: tokens).map .ok ++ rest'))) :=
    Rule.agrees_document hstream hlast
  rw [h] at hagrees
  rw [parse_fst]
  generalize Rule.document limits.maxNesting (.ofItems limits ((first :: tokens).map .ok ++ rest')) = result
    at hagrees ⊢
  cases hagrees with
  | error => rfl
  | beyond hbeyond => exact absurd hbeyond (Nat.not_lt.mpr hafter)

end Parser

end Questionnaire
