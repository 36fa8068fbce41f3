import Questionnaire.Proofs.Grammar.Reading

/-! Reading under narrow limits beside reading under wider ones. The two go on in step, and answer the same or stop at
the same fault, unless the narrow one stops because the nesting is too deep. One lemma for each way to put rules
together carries this from the smallest rules to whole documents. -/

namespace Questionnaire

/-- The same parser but for its limits, which are no narrower. -/
structure Parser.Widens (narrow wide : Parser) : Prop where
  items : wide.items = narrow.items
  current : wide.current = narrow.current
  previous : wide.previous = narrow.previous
  started : wide.started = narrow.started
  depth : wide.depth = narrow.depth
  links : wide.links = narrow.links
  maxNesting : narrow.limits.maxNesting ≤ wide.limits.maxNesting
  maxExpressionDepth : narrow.limits.maxExpressionDepth ≤ wide.limits.maxExpressionDepth

/-- How a reading under narrow limits may end beside one under wider limits. -/
inductive InStep {α : Type} : EStateM.Result Diagnostic Parser α → EStateM.Result Diagnostic Parser α → Prop where
  | ok {value : α} {narrow wide : Parser} (h : narrow.Widens wide) : InStep (.ok value narrow) (.ok value wide)
  | error {diagnostic : Diagnostic} {narrow wide : Parser} : InStep (.error diagnostic narrow) (.error diagnostic wide)
  | tooDeep {position : Position} {narrow : Parser} {wide : EStateM.Result Diagnostic Parser α} :
      InStep (.error ⟨.tooDeep, position⟩ narrow) wide

namespace Rule

variable {α β : Type} {rule rule' : Rule α} {inner inner' : Rule Expr} {embedding embedding' : Rule SimpleStatement}
  {body body' : Rule Statement}

/-- The first rule does under narrow limits what the second does under wider ones, unless it finds the nesting too
deep. -/
def Refines (rule rule' : Rule α) : Prop := ∀ p p', p.Widens p' → InStep (rule p) (rule' p')

/-- Both offer a round or neither does. -/
def OfferRefines (offer offer' : Token → Option (Rule α)) : Prop :=
  ∀ token, Option.Rel Refines (offer token) (offer' token)

theorem refines_pure (value : α) : Refines (pure value) (pure value) := fun _ _ h => .ok h

theorem refines_bind {next next' : α → Rule β} (h : Refines rule rule')
    (hnext : ∀ value, Refines (next value) (next' value)) : Refines (rule >>= next) (rule' >>= next') := by
  intro p p' hp
  have hrule := h p p' hp
  change InStep (EStateM.bind rule next p) (EStateM.bind rule' next' p')
  unfold EStateM.bind
  generalize rule p = result at hrule ⊢
  generalize rule' p' = result' at hrule ⊢
  cases hrule with
  | ok hq => exact hnext _ _ _ hq
  | error => exact .error
  | tooDeep => exact .tooDeep

theorem refines_map (f : α → β) (h : Refines rule rule') : Refines (f <$> rule) (f <$> rule') := by
  have hbind : Refines (rule >>= fun value => pure (f value)) (rule' >>= fun value => pure (f value)) :=
    refines_bind h fun value => refines_pure (f value)
  rwa [bind_pure_comp, bind_pure_comp] at hbind

theorem refines_ite {c : Prop} [Decidable c] {other other' : Rule α} (h : Refines rule rule')
    (hother : Refines other other') : Refines (if c then rule else other) (if c then rule' else other') := by
  split
  · exact h
  · exact hother

theorem refines_current : Refines current current := by
  intro p p' h
  change InStep (.ok p.current p) (.ok p'.current p')
  rw [h.current]
  exact .ok h

theorem refines_refuse (fault : Fault) : Refines (refuse fault : Rule α) (refuse fault) := by
  intro p p' h
  unfold refuse
  rw [h.current]
  exact .error

theorem refines_throw (diagnostic : Diagnostic) : Refines (throw diagnostic : Rule α) (throw diagnostic) :=
  fun _ _ _ => .error

theorem refines_spanSince (first : Token) : Refines (spanSince first) (spanSince first) := by
  intro p p' h
  unfold spanSince
  rw [h.previous]
  exact .ok h

theorem refines_fetch : Refines fetch fetch := by
  intro p p' h
  unfold fetch
  rw [h.items]
  cases p.items with
  | nil => exact refines_refuse _ p p' h
  | cons item items =>
      cases item with
      | error diagnostic => exact .error
      | ok token =>
          exact .ok ⟨rfl, h.current, h.previous, h.started, h.depth, h.links, h.maxNesting, h.maxExpressionDepth⟩

theorem refines_shift : Refines shift shift := by
  intro p p' h
  unfold shift
  rw [h.current]
  split
  · exact .ok h
  · have hfetch := refines_fetch p p' h
    generalize fetch p = result at hfetch ⊢
    generalize fetch p' = result' at hfetch ⊢
    cases hfetch with
    | ok hq => exact .ok ⟨hq.items, rfl, rfl, hq.started, hq.depth, hq.links, hq.maxNesting, hq.maxExpressionDepth⟩
    | error => exact .error
    | tooDeep => exact .tooDeep

theorem refines_charge : Refines charge charge := by
  intro p p' h
  unfold charge
  split
  · exact .tooDeep
  next hlinks =>
    have := h.maxExpressionDepth
    rw [h.links, if_neg (by omega)]
    exact .ok ⟨h.items, h.current, h.previous, h.started, h.depth, rfl, h.maxNesting, h.maxExpressionDepth⟩

theorem refines_leaving {exit exit' : Parser → Parser} {p p' : Parser} (h : InStep (rule p) (rule' p'))
    (hexit : ∀ q q', q.Widens q' → (exit q).Widens (exit' q')) :
    InStep (leaving exit rule p) (leaving exit' rule' p') := by
  unfold leaving
  generalize rule p = result at h ⊢
  generalize rule' p' = result' at h ⊢
  cases h with
  | ok hq => exact .ok (hexit _ _ hq)
  | error => exact .error
  | tooDeep => exact .tooDeep

theorem refines_bracketed (h : Refines rule rule') : Refines (bracketed rule) (bracketed rule') := by
  intro p p' hp
  unfold bracketed
  split
  · exact .tooDeep
  next hdepth =>
    have := hp.maxNesting
    rw [hp.depth, if_neg (by omega)]
    refine refines_leaving (h _ _ ?_) fun q q' hq => ?_
    · exact ⟨hp.items, hp.current, hp.previous, hp.started, rfl, hp.links, hp.maxNesting, hp.maxExpressionDepth⟩
    · refine ⟨hq.items, hq.current, hq.previous, hq.started, ?_, hq.links, hq.maxNesting, hq.maxExpressionDepth⟩
      rw [hq.depth]

theorem refines_budgeted (h : Refines rule rule') : Refines (budgeted rule) (budgeted rule') := by
  intro p p' hp
  unfold budgeted
  refine refines_leaving (h _ _ ?_) fun q q' hq => ?_
  · exact ⟨hp.items, hp.current, hp.previous, hp.started, hp.depth, rfl, hp.maxNesting, hp.maxExpressionDepth⟩
  · exact ⟨hq.items, hq.current, hq.previous, hq.started, hq.depth, hp.links, hq.maxNesting, hq.maxExpressionDepth⟩

theorem refines_rounds {offer offer' : Token → Option (Rule α)} (h : OfferRefines offer offer') (fuel : List Item) :
    Refines (rounds offer fuel) (rounds offer' fuel) := by
  induction fuel with
  | nil =>
      apply refines_bind refines_current
      intro token
      have hoffer := h token
      generalize offer token = offered at hoffer ⊢
      generalize offer' token = offered' at hoffer ⊢
      cases hoffer with
      | none => exact refines_pure []
      | some hround => exact refines_bind hround fun value => refines_pure [value]
  | cons item fuel ih =>
      apply refines_bind refines_current
      intro token
      have hoffer := h token
      generalize offer token = offered at hoffer ⊢
      generalize offer' token = offered' at hoffer ⊢
      cases hoffer with
      | none => exact refines_pure []
      | some hround =>
          exact refines_bind hround fun value => refines_bind ih fun values => refines_pure (value :: values)

theorem refines_repeatWhile {offer offer' : Token → Option (Rule α)} (h : OfferRefines offer offer') :
    Refines (repeatWhile offer) (repeatWhile offer') := by
  intro p p' hp
  unfold repeatWhile
  rw [hp.items]
  exact refines_rounds h p.items p p' hp

theorem refines_expect (kind : TokenKind) : Refines (expect kind) (expect kind) :=
  refines_bind refines_current fun token =>
    refines_ite (refines_bind refines_shift fun _ => refines_pure token) (refines_refuse _)

theorem refines_expectWord (kind : TokenKind) (word : String) :
    Refines (expectWord kind word) (expectWord kind word) :=
  refines_bind refines_current fun token =>
    refines_ite (refines_bind refines_shift fun _ => refines_pure token) (refines_refuse _)

theorem refines_passWord (kind : TokenKind) (word : String) : Refines (passWord kind word) (passWord kind word) :=
  refines_bind refines_current fun _ =>
    refines_ite (refines_bind refines_shift fun _ => refines_pure true) (refines_pure false)

theorem refines_refuseUnexpected : Refines (refuseUnexpected : Rule α) refuseUnexpected :=
  refines_bind refines_current fun _ => refines_refuse _

theorem refines_arguments (h : Refines inner inner') : Refines (arguments inner) (arguments inner') := by
  refine refines_bracketed (refines_bind (refines_expectWord _ _) fun _ => refines_bind refines_current fun token => ?_)
  have hclose (answers : List Expr) : Refines (do let _ ← expectWord .punctuation ")"; pure answers)
      (do let _ ← expectWord .punctuation ")"; pure answers) :=
    refines_bind (refines_expectWord _ _) fun _ => refines_pure answers
  refine refines_ite (refines_bind (refines_pure []) hclose) (refines_bind h fun first => ?_)
  refine refines_bind (refines_repeatWhile fun token => ?_) fun others =>
    refines_bind (refines_pure (first :: others)) hclose
  split
  · exact .some (refines_bind refines_shift fun _ => h)
  · exact .none

theorem refines_members : Refines members members := by
  refine refines_repeatWhile fun token => ?_
  split
  · refine .some (refines_bind refines_charge fun _ => refines_bind refines_shift fun _ => ?_)
    exact refines_bind refines_current fun name =>
      refines_ite (refines_bind refines_shift fun _ => refines_pure name) (refines_refuse _)
  · exact .none

theorem refines_withMembers (container : Expr) : Refines (withMembers container) (withMembers container) :=
  refines_ite (refines_bind refines_members fun _ => refines_pure _) (refines_pure container)

theorem refines_group (h : Refines inner inner') : Refines (group inner) (group inner') :=
  refines_bracketed (refines_bind refines_current fun _ => refines_bind refines_shift fun _ =>
    refines_bind h fun _ => refines_bind (refines_expectWord _ _) fun _ => refines_pure _)

theorem refines_number : Refines number number := by
  refine refines_bind refines_current fun token => refines_bind refines_shift fun _ => ?_
  cases Double.read? token.text.toList with
  | none => exact refines_throw _
  | some value => exact refines_pure _

theorem refines_answerMode : Refines answerMode answerMode := by
  apply refines_bind refines_current
  intro token
  cases AnswerMode.ofKeyword? token.text with
  | none => exact refines_refuseUnexpected
  | some mode => exact refines_ite (refines_bind refines_shift fun _ => refines_pure mode) refines_refuseUnexpected

theorem refines_answered (h : Refines inner inner') : Refines (answered inner) (answered inner') :=
  refines_bind (refines_expectWord _ _) fun _ => refines_bind (refines_expectWord _ _) fun _ =>
    refines_bind (refines_expect _) fun _ => refines_bind refines_answerMode fun _ =>
      refines_bind (refines_arguments h) fun _ => refines_bind (refines_spanSince _) fun _ => refines_pure _

theorem refines_operand (h : Refines inner inner') : Refines (operand inner) (operand inner') := by
  apply refines_bind refines_current
  intro token
  cases token.kind with
  | punctuation => exact refines_ite (refines_bind (refines_group h) refines_withMembers) refines_refuseUnexpected
  | identifier => exact refines_bind refines_shift fun _ => refines_withMembers _
  | number => exact refines_number
  | string => exact refines_bind refines_shift fun _ => refines_pure _
  | valueKeyword => exact refines_bind refines_shift fun _ => refines_pure _
  | keyword => exact refines_ite (refines_answered h) refines_refuseUnexpected
  | _ => exact refines_refuseUnexpected

theorem refines_links (h : Refines inner inner') : Refines (links inner) (links inner') := by
  refine refines_repeatWhile fun token => ?_
  split
  · cases BinaryOp.ofLexeme? token.text with
    | none => exact .none
    | some op =>
        exact .some (refines_bind refines_charge fun _ => refines_bind refines_shift fun _ =>
          refines_bind (refines_operand h) fun _ => refines_pure _)
  · exact .none

theorem refines_operation (h : Refines inner inner') : Refines (operation inner) (operation inner') :=
  refines_bind (refines_operand h) fun _ => refines_bind (refines_links h) fun _ => refines_pure _

theorem refines_assignment (h : Refines inner inner') : Refines (assignment inner) (assignment inner') := by
  refine refines_bind (refines_operation h) fun left => refines_bind refines_current fun token => ?_
  refine refines_ite ?_ (refines_pure left)
  cases left with
  | symbol target span =>
      exact refines_bind refines_shift fun _ => refines_bind (refines_operation h) fun _ => refines_pure _
  | _ => exact refines_refuse _

theorem refines_tooDeep : Refines (refuse .tooDeep) rule := fun _ _ _ => .tooDeep

/-- There is no harm in more levels of brackets. -/
theorem refines_expression {level level' : Nat} (h : level ≤ level') :
    Refines (expression level) (expression level') := by
  induction level generalizing level' with
  | zero => exact refines_tooDeep
  | succ level ih =>
      cases level' with
      | zero => cases h
      | succ level' => exact refines_assignment (ih (Nat.le_of_succ_le_succ h))

theorem refines_simpleStatement (h : Refines inner inner') : Refines (simpleStatement inner) (simpleStatement inner') :=
  refines_bind refines_current fun _ => refines_bind (refines_budgeted h) fun _ =>
    refines_bind (refines_spanSince _) fun _ => refines_pure _

theorem refines_embedded (h : Refines inner inner') : Refines (embedded inner) (embedded inner') :=
  refines_bracketed (refines_bind (refines_expect _) fun _ => refines_bind (refines_budgeted h) fun _ =>
    refines_bind (refines_expect _) fun _ => refines_bind (refines_spanSince _) fun _ => refines_pure _)

theorem refines_block (h : Refines body body') : Refines (block body) (block body') := by
  refine refines_bracketed (refines_bind (refines_expectWord _ _) fun _ => ?_)
  refine refines_bind (refines_repeatWhile fun token => ?_) fun _ =>
    refines_bind (refines_expectWord _ _) fun _ => refines_bind (refines_spanSince _) fun _ => refines_pure _
  split
  · exact .none
  · split
    · exact .some (refines_refuse _)
    · exact .some h

theorem refines_condition (h : Refines inner inner') : Refines (condition inner) (condition inner') :=
  refines_bind (refines_expectWord _ _) fun _ => refines_simpleStatement h

theorem refines_conditions (h : Refines inner inner') (kind : TokenKind) (word : String) :
    Refines (conditions inner kind word) (conditions inner' kind word) := by
  refine refines_bind (refines_condition h) fun _ => refines_bind (refines_repeatWhile fun token => ?_) fun _ =>
    refines_pure _
  split
  · exact .none
  · exact .some (refines_condition h)

theorem refines_ruleDefinition (h : Refines inner inner') (hbody : Refines body body') :
    Refines (ruleDefinition inner body) (ruleDefinition inner' body') :=
  refines_bind (refines_expectWord _ _) fun _ => refines_bind (refines_expect _) fun _ =>
    refines_bind (refines_expectWord _ _) fun _ => refines_bind (refines_conditions h _ _) fun _ =>
      refines_bind (refines_block hbody) fun _ => refines_bind (refines_spanSince _) fun _ => refines_pure _

theorem refines_actionDefinition (h : Refines body body') :
    Refines (actionDefinition body) (actionDefinition body') :=
  refines_bind (refines_expectWord _ _) fun _ => refines_bind (refines_expect _) fun _ =>
    refines_bind (refines_block h) fun _ => refines_bind (refines_spanSince _) fun _ => refines_pure _

theorem refines_conditionSet (h : Refines inner inner') : Refines (conditionSet inner) (conditionSet inner') :=
  refines_bind (refines_expectWord _ _) fun _ => refines_bind (refines_expect _) fun _ =>
    refines_bind (refines_expectWord _ _) fun _ => refines_bind (refines_conditions h _ _) fun _ =>
      refines_bind (refines_expectWord _ _) fun _ => refines_bind (refines_spanSince _) fun _ => refines_pure _

theorem refines_declaration (h : Refines inner inner') : Refines (declaration inner) (declaration inner') := by
  refine refines_bind (refines_expectWord _ _) fun first => refines_bind (refines_expect _) fun name =>
    refines_bind (refines_passWord _ _) fun passed => ?_
  have hend (value : Option Expr) :
      Refines (do return Statement.declaration name value (← spanSince first))
        (do return Statement.declaration name value (← spanSince first)) :=
    refines_bind (refines_spanSince first) fun _ => refines_pure _
  exact refines_ite (refines_bind (refines_map _ (refines_budgeted h)) hend) (refines_bind (refines_pure none) hend)

theorem refines_invocation (form : Token → Span → Statement) : Refines (invocation form) (invocation form) :=
  refines_bind refines_current fun _ => refines_bind refines_shift fun _ => refines_bind (refines_expect _) fun _ =>
    refines_bind (refines_spanSince _) fun _ => refines_pure _

theorem refines_command {answers answers' : Rule (List Expr)} (h : Refines answers answers') :
    Refines (command answers) (command answers') :=
  refines_bind (refines_expect _) fun _ => refines_bind (refines_budgeted h) fun _ =>
    refines_bind (refines_spanSince _) fun _ => refines_pure _

theorem refines_bareStatement (h : Refines inner inner') (hbody : Refines body body') :
    Refines (bareStatement inner body) (bareStatement inner' body') := by
  apply refines_bind refines_current
  intro token
  have hexpr := refines_assignment h
  have hsimple : Refines (Statement.simple <$> simpleStatement (assignment inner))
      (Statement.simple <$> simpleStatement (assignment inner')) := refines_map _ (refines_simpleStatement hexpr)
  cases token.kind with
  | string => exact hsimple
  | number => exact hsimple
  | valueKeyword => exact hsimple
  | identifier => exact hsimple
  | punctuation => exact refines_ite hsimple refines_refuseUnexpected
  | callKeyword =>
      refine refines_ite (refines_invocation _) (refines_ite (refines_invocation _) ?_)
      exact refines_ite refines_refuseUnexpected (refines_command (refines_arguments h))
  | keyword =>
      refine refines_ite (refines_ruleDefinition hexpr hbody) (refines_ite (refines_actionDefinition hbody) ?_)
      refine refines_ite (refines_conditionSet hexpr) (refines_ite (refines_declaration (refines_operation h)) ?_)
      exact refines_ite hsimple refines_refuseUnexpected
  | _ => exact refines_refuseUnexpected

theorem refines_statement {level level' : Nat} (h : level ≤ level') : Refines (statement level) (statement level') := by
  induction level generalizing level' with
  | zero => exact refines_tooDeep
  | succ level ih =>
      cases level' with
      | zero => cases h
      | succ level' =>
          have hle := Nat.le_of_succ_le_succ h
          exact refines_bind (refines_bareStatement (refines_expression hle) (ih hle)) fun _ =>
            refines_bind (refines_passWord _ _) fun _ => refines_pure _

theorem refines_attributeValue (h : Refines embedding embedding') :
    Refines (attributeValue embedding) (attributeValue embedding') := by
  apply refines_bind refines_current
  intro token
  cases token.kind with
  | string => exact refines_bind refines_shift fun _ => refines_pure _
  | embeddedOpen => exact refines_map _ h
  | _ => exact refines_refuse _

theorem refines_oneAttribute (h : Refines embedding embedding') :
    Refines (oneAttribute embedding) (oneAttribute embedding') := by
  apply refines_bind refines_current
  intro name
  cases name.kind with
  | identifier => exact refines_bind refines_shift fun _ => refines_pure _
  | attributeKeyword =>
      refine refines_bind refines_shift fun _ => refines_bind (refines_passWord _ _) fun passed => ?_
      have hend (value : Option AttributeValue) :
          Refines (do return (⟨name.text, value, false, ← spanSince name⟩ : Attribute))
            (do return ⟨name.text, value, false, ← spanSince name⟩) :=
        refines_bind (refines_spanSince name) fun _ => refines_pure _
      exact refines_ite (refines_bind (refines_map _ (refines_attributeValue h)) hend)
        (refines_bind (refines_pure none) hend)
  | _ => exact refines_refuse _

theorem refines_attributes (h : Refines embedding embedding') (left right : TokenKind) :
    Refines (attributes embedding left right) (attributes embedding' left right) := by
  refine refines_bind (refines_expect _) fun _ => refines_bind (refines_repeatWhile fun token => ?_) fun _ =>
    refines_bind (refines_expect _) fun _ => refines_pure _
  split
  · exact .none
  · split
    · exact .some (refines_refuse _)
    · exact .some (refines_oneAttribute h)

theorem refines_texts (h : Refines embedding embedding') : Refines (texts embedding) (texts embedding') := by
  refine refines_repeatWhile fun token => ?_
  cases token.kind with
  | textRun => exact .some (refines_bind refines_shift fun _ => refines_pure _)
  | embeddedOpen => exact .some (refines_map _ h)
  | _ => exact .none

theorem refines_answerOption (h : Refines embedding embedding') :
    Refines (answerOption embedding) (answerOption embedding') :=
  refines_bind refines_current fun _ => refines_bind (refines_attributes h _ _) fun _ =>
    refines_bind (refines_texts h) fun _ => refines_bind (refines_spanSince _) fun _ => refines_pure _

theorem refines_question (h : Refines embedding embedding') : Refines (question embedding) (question embedding') := by
  refine refines_bind refines_current fun first => refines_bind (refines_attributes h _ _) fun attributes =>
    refines_bind refines_current fun token => ?_
  refine refines_ite (refines_bind (refines_spanSince _) fun _ => refines_pure _) ?_
  refine refines_bind (refines_texts h) fun texts => refines_bind (refines_repeatWhile fun token => ?_) fun options =>
    refines_bind (refines_spanSince _) fun _ => refines_pure _
  split
  · exact .none
  · exact .some (refines_answerOption h)

theorem refines_interlude (h : Refines body body') : Refines (interlude body) (interlude body') := by
  refine refines_bind (refines_expect _) fun _ => refines_bind (refines_repeatWhile fun token => ?_) fun _ =>
    refines_bind (refines_expect _) fun _ => refines_bind (refines_spanSince _) fun _ => refines_pure _
  split
  · exact .none
  · split
    · exact .some (refines_refuse _)
    · exact .some h

theorem refines_component {level level' : Nat} (h : level ≤ level') : Refines (component level) (component level') := by
  apply refines_bind refines_current
  intro token
  cases token.kind with
  | questionOpen => exact refines_question (refines_embedded (refines_expression h))
  | logicOpen => exact refines_interlude (refines_statement (Nat.succ_le_succ h))
  | _ => exact refines_refuseUnexpected

theorem refines_start : Refines start start := by
  intro p p' h
  unfold start
  rw [h.started]
  split
  · exact .ok h
  · have hp : Parser.Widens { p with started := true } { p' with started := true } :=
      ⟨h.items, h.current, h.previous, rfl, h.depth, h.links, h.maxNesting, h.maxExpressionDepth⟩
    have hfetch := refines_fetch _ _ hp
    generalize fetch { p with started := true } = result at hfetch ⊢
    generalize fetch { p' with started := true } = result' at hfetch ⊢
    cases hfetch with
    | ok hq =>
        exact .ok ⟨hq.items, rfl, hq.previous, hq.started, hq.depth, hq.links, hq.maxNesting, hq.maxExpressionDepth⟩
    | error => exact .error
    | tooDeep => exact .tooDeep

/-- A document is read under narrow limits as it is under wider ones, unless its nesting is too deep for them. -/
theorem refines_document {level level' : Nat} (h : level ≤ level') :
    Refines (Rule.document level) (Rule.document level') := by
  refine refines_bind refines_start fun _ => refines_bind (refines_repeatWhile fun token => ?_) fun _ =>
    refines_pure _
  split
  · exact .none
  · exact .some (refines_component h)

end Rule

namespace Document

/-- Wider limits change nothing but that fewer documents are too deep. -/
theorem parse_eq_or_tooDeep {limits wider : Limits} (source : String) (hnesting : limits.maxNesting ≤ wider.maxNesting)
    (hdepth : limits.maxExpressionDepth ≤ wider.maxExpressionDepth) :
    Document.parse limits source = Document.parse wider source ∨
      ∃ position, Document.parse limits source = .error ⟨.tooDeep, position⟩ := by
  have hwidens : Parser.Widens (.ofSource limits source) (.ofSource wider source) :=
    ⟨rfl, rfl, rfl, rfl, rfl, rfl, hnesting, hdepth⟩
  have hstep := Rule.refines_document hnesting _ _ hwidens
  rw [Document.parse_eq limits, Document.parse_eq wider]
  generalize Rule.document limits.maxNesting (.ofSource limits source) = result at hstep ⊢
  generalize Rule.document wider.maxNesting (.ofSource wider source) = result' at hstep ⊢
  cases hstep with
  | ok => exact .inl rfl
  | error => exact .inl rfl
  | @tooDeep position => exact .inr ⟨position, rfl⟩

end Document

end Questionnaire
