import Questionnaire.Grammar.Document

/-! How the rules of the grammar are put together. Every rule for an expression, a statement or a component is built of
the same few small rules in the same few ways, so that whatever all of these keep is kept by the grammar. A stream and
a parser are touched by the small rules alone. What the token ahead is known to be goes along with a rule up to where
another token may have come. -/

namespace Questionnaire

/-- Whether the fault is one of the grammar, which lies with a token. -/
def Fault.isGrammatical : Fault → Bool
  | .expected .. => true
  | .unexpectedToken _ => true
  | .invalidAttributeName _ => true
  | .invalidAttributeValue _ => true
  | .invalidAssignment => true
  | .invalidProperty => true
  | .tooDeep => true
  | _ => false

/-- What the fault says was found, if it says so. -/
def Fault.found? : Fault → Option String
  | .expected _ found => some found
  | .unexpectedToken found => some found
  | .invalidAttributeName found => some found
  | .invalidAttributeValue found => some found
  | _ => none

namespace Rule

/-- The rule is one of the small ones, or put together of rules that are composed in turn, where the token ahead may be
known. A number is read only where one is known to be ahead, and what a fault says was found is such a token. -/
inductive ComposedAt : {α : Type} → Option Token → Rule α → Prop where
  | pure {α : Type} {ahead : Option Token} (value : α) : ComposedAt ahead (pure value)
  | bind {α β : Type} {ahead : Option Token} {rule : Rule α} {next : α → Rule β} (hrule : ComposedAt ahead rule)
      (hnext : ∀ value, ComposedAt none (next value)) : ComposedAt ahead (rule >>= next)
  | look {β : Type} {ahead : Option Token} {next : Token → Rule β}
      (hnext : ∀ token, ComposedAt (some token) (next token)) : ComposedAt ahead (current >>= next)
  | current {ahead : Option Token} : ComposedAt ahead current
  | shift {ahead : Option Token} : ComposedAt ahead shift
  | charge {ahead : Option Token} : ComposedAt ahead charge
  | spanSince {ahead : Option Token} (first : Token) : ComposedAt ahead (spanSince first)
  | number {token : Token} (hkind : token.kind = .number) : ComposedAt (some token) number
  | refuse {α : Type} {ahead : Option Token} {fault : Fault} (hfault : fault.isGrammatical = true)
      (hfound : ∀ text ∈ fault.found?, text ∈ ahead.map Token.found) : ComposedAt ahead (refuse (α := α) fault)
  | bracketed {α : Type} {ahead : Option Token} {rule : Rule α} (hrule : ComposedAt ahead rule) :
      ComposedAt ahead (bracketed rule)
  | budgeted {α : Type} {ahead : Option Token} {rule : Rule α} (hrule : ComposedAt ahead rule) :
      ComposedAt ahead (budgeted rule)
  | repeatWhile {α : Type} {ahead : Option Token} {offer : Token → Option (Rule α)}
      (hoffer : ∀ token, ∀ rule ∈ offer token, ComposedAt (some token) rule) : ComposedAt ahead (repeatWhile offer)

/-- The rule is composed, whatever is ahead. -/
def Composed {α : Type} (rule : Rule α) : Prop := ∀ ahead, ComposedAt ahead rule

theorem ComposedAt.ite {α : Type} {ahead : Option Token} {rule other : Rule α} {c : Prop} [Decidable c]
    (h : ComposedAt ahead rule) (hother : ComposedAt ahead other) : ComposedAt ahead (if c then rule else other) := by
  by_cases hc : c
  · rw [if_pos hc]
    exact h
  · rw [if_neg hc]
    exact hother

namespace Composed

variable {α β : Type} {rule other : Rule α}

theorem pure (value : α) : Composed (pure value) := fun _ => .pure value

theorem bind {next : α → Rule β} (hrule : Composed rule) (hnext : ∀ value, Composed (next value)) :
    Composed (rule >>= next) := fun ahead => .bind (hrule ahead) fun value => hnext value none

theorem look {next : Token → Rule β} (hnext : ∀ token, ComposedAt (some token) (next token)) :
    Composed (Rule.current >>= next) := fun _ => .look hnext

theorem current : Composed current := fun _ => .current

theorem shift : Composed shift := fun _ => .shift

theorem charge : Composed charge := fun _ => .charge

theorem spanSince (first : Token) : Composed (spanSince first) := fun _ => .spanSince first

theorem refuse {fault : Fault} (hfault : fault.isGrammatical = true) (hfound : fault.found? = none) :
    Composed (refuse (α := α) fault) := fun _ => .refuse hfault (by rw [hfound]; exact nofun)

theorem bracketed (h : Composed rule) : Composed (bracketed rule) := fun ahead => .bracketed (h ahead)

theorem budgeted (h : Composed rule) : Composed (budgeted rule) := fun ahead => .budgeted (h ahead)

theorem repeatWhile {offer : Token → Option (Rule α)} (hoffer : ∀ token, ∀ rule ∈ offer token, Composed rule) :
    Composed (repeatWhile offer) := fun _ => .repeatWhile fun token rule hrule => hoffer token rule hrule _

theorem ite {c : Prop} [Decidable c] (h : Composed rule) (hother : Composed other) :
    Composed (if c then rule else other) := fun ahead => .ite (h ahead) (hother ahead)

theorem map (h : Composed rule) (f : α → β) : Composed (f <$> rule) := by
  have hbind : Composed (rule >>= fun value => Pure.pure (f value)) := .bind h fun value => .pure (f value)
  rwa [bind_pure_comp] at hbind

theorem refuseUnexpected : Composed (refuseUnexpected (α := α)) := .look fun _ => .refuse rfl fun _ => id

theorem expect (kind : TokenKind) : Composed (expect kind) :=
  .look fun _ => .ite (.bind .shift fun _ => .pure _) (.refuse rfl fun _ => id)

theorem expectWord (kind : TokenKind) (word : String) : Composed (expectWord kind word) :=
  .look fun _ => .ite (.bind .shift fun _ => .pure _) (.refuse rfl fun _ => id)

theorem passWord (kind : TokenKind) (word : String) : Composed (passWord kind word) :=
  .bind .current fun _ => .ite (.bind .shift fun _ => .pure _) (.pure _)

variable {inner : Rule Expr}

theorem arguments (h : Composed inner) : Composed (arguments inner) := by
  refine .bracketed (.bind (.expectWord _ _) fun _ => .bind .current fun token => ?_)
  have hclose (answers : List Expr) : Composed (do let _ ← Rule.expectWord .punctuation ")"; Pure.pure answers) :=
    .bind (.expectWord _ _) fun _ => .pure _
  refine .ite (.bind (.pure _) hclose) (.bind h fun first => ?_)
  refine .bind (.repeatWhile fun token rule hrule => ?_) fun others => .bind (.pure _) hclose
  split at hrule
  · cases hrule
    exact .bind .shift fun _ => h
  · cases hrule

theorem members : Composed members := by
  refine .repeatWhile fun token rule hrule => ?_
  split at hrule
  · cases hrule
    refine .bind .charge fun _ => .bind .shift fun _ => .bind .current fun name => ?_
    exact .ite (.bind .shift fun _ => .pure _) (.refuse rfl rfl)
  · cases hrule

theorem withMembers (container : Expr) : Composed (withMembers container) :=
  .ite (.bind members fun _ => .pure _) (.pure _)

theorem group (h : Composed inner) : Composed (group inner) :=
  .bracketed (.bind .current fun _ => .bind .shift fun _ => .bind h fun _ => .bind (.expectWord _ _) fun _ => .pure _)

theorem answerMode : Composed answerMode := by
  refine .bind .current fun token => ?_
  split
  · exact .ite (.bind .shift fun _ => .pure _) refuseUnexpected
  · exact refuseUnexpected

theorem answered (h : Composed inner) : Composed (answered inner) := by
  refine .bind (.expectWord _ _) fun _ => .bind (.expectWord _ _) fun _ => .bind (.expect _) fun _ => ?_
  exact .bind answerMode fun _ => .bind (arguments h) fun _ => .bind (.spanSince _) fun _ => .pure _

theorem operand (h : Composed inner) : Composed (operand inner) := by
  refine .look fun token => ?_
  split
  · exact .ite (.bind (group h _) fun _ => withMembers _ _) (refuseUnexpected _)
  · exact .bind .shift fun _ => withMembers _ _
  next hnumber => exact .number hnumber
  · exact .bind .shift fun _ => .pure _
  · exact .bind .shift fun _ => .pure _
  · exact .ite (answered h _) (refuseUnexpected _)
  · exact refuseUnexpected _

theorem links (h : Composed inner) : Composed (links inner) := by
  refine .repeatWhile fun token rule hrule => ?_
  split at hrule
  · obtain ⟨op, -, rfl⟩ := Option.map_eq_some_iff.mp hrule
    exact .bind .charge fun _ => .bind .shift fun _ => .bind (operand h) fun _ => .pure _
  · cases hrule

theorem operation (h : Composed inner) : Composed (operation inner) :=
  .bind (operand h) fun _ => .bind (links h) fun _ => .pure _

theorem assignment (h : Composed inner) : Composed (assignment inner) := by
  refine .bind (operation h) fun left => .bind .current fun token => .ite ?_ (.pure _)
  split
  · exact .bind .shift fun _ => .bind (operation h) fun _ => .pure _
  · exact .refuse rfl rfl

theorem expression (level : Nat) : Composed (expression level) := by
  induction level with
  | zero => exact .refuse rfl rfl
  | succ level ih => exact assignment ih

theorem simpleStatement (h : Composed inner) : Composed (simpleStatement inner) :=
  .bind .current fun _ => .bind (.budgeted h) fun _ => .bind (.spanSince _) fun _ => .pure _

theorem embedded (h : Composed inner) : Composed (embedded inner) := by
  refine .bracketed (.bind (.expect _) fun _ => .bind (.budgeted h) fun _ => .bind (.expect _) fun _ => ?_)
  exact .bind (.spanSince _) fun _ => .pure _

/-- Rounds up to a token that closes them, before which the input may not end. -/
theorem untilClosed {closes : Token → Prop} [DecidablePred closes] {what : Token → Fault} (h : Composed rule)
    (hwhat : ∀ token, (what token).isGrammatical = true) (hfound : ∀ token, (what token).found? = some token.found) :
    Composed (Rule.repeatWhile fun token => if closes token then none
      else if token.kind = .endOfInput then some (Rule.refuse (what token)) else some rule) := by
  refine fun _ => .repeatWhile fun token offered hoffered => ?_
  split at hoffered
  · cases hoffered
  · split at hoffered
    · cases hoffered
      exact .refuse (hwhat token) (by rw [hfound]; exact fun _ => id)
    · cases hoffered
      exact h _

variable {body : Rule Statement}

theorem block (h : Composed body) : Composed (block body) := by
  refine .bracketed (.bind (.expectWord _ _) fun _ => .bind (untilClosed h (fun _ => rfl) fun _ => rfl) fun _ => ?_)
  exact .bind (.expectWord _ _) fun _ => .bind (.spanSince _) fun _ => .pure _

theorem condition (h : Composed inner) : Composed (condition inner) :=
  .bind (.expectWord _ _) fun _ => simpleStatement h

theorem conditions (h : Composed inner) (kind : TokenKind) (word : String) : Composed (conditions inner kind word) := by
  refine .bind (condition h) fun first => .bind (.repeatWhile fun token rule hrule => ?_) fun _ => .pure _
  split at hrule
  · cases hrule
  · cases hrule
    exact condition h

theorem ruleDefinition (h : Composed inner) (hbody : Composed body) : Composed (ruleDefinition inner body) := by
  refine .bind (.expectWord _ _) fun _ => .bind (.expect _) fun _ => .bind (.expectWord _ _) fun _ => ?_
  refine .bind (conditions h _ _) fun _ => .bind (block hbody) fun _ => ?_
  exact .bind (.spanSince _) fun _ => .pure _

theorem actionDefinition (hbody : Composed body) : Composed (actionDefinition body) := by
  refine .bind (.expectWord _ _) fun _ => .bind (.expect _) fun _ => .bind (block hbody) fun _ => ?_
  exact .bind (.spanSince _) fun _ => .pure _

theorem conditionSet (h : Composed inner) : Composed (conditionSet inner) := by
  refine .bind (.expectWord _ _) fun _ => .bind (.expect _) fun _ => .bind (.expectWord _ _) fun _ => ?_
  refine .bind (conditions h _ _) fun _ => .bind (.expectWord _ _) fun _ => ?_
  exact .bind (.spanSince _) fun _ => .pure _

theorem declaration (h : Composed inner) : Composed (declaration inner) := by
  refine .bind (.expectWord _ _) fun _ => .bind (.expect _) fun _ => .bind (.passWord _ _) fun passed => ?_
  refine .ite (.bind (.map (.budgeted h) _) fun _ => ?_) (.bind (.pure _) fun _ => ?_)
  · exact .bind (.spanSince _) fun _ => .pure _
  · exact .bind (.spanSince _) fun _ => .pure _

theorem invocation (form : Token → Span → Statement) : Composed (invocation form) := by
  refine .bind .current fun _ => .bind .shift fun _ => .bind (.expect _) fun _ => ?_
  exact .bind (.spanSince _) fun _ => .pure _

theorem command {list : Rule (List Expr)} (h : Composed list) : Composed (command list) :=
  .bind (.expect _) fun _ => .bind (.budgeted h) fun _ => .bind (.spanSince _) fun _ => .pure _

theorem bareStatement (h : Composed inner) (hbody : Composed body) : Composed (bareStatement inner body) := by
  have hsimple : Composed (Statement.simple <$> Rule.simpleStatement (Rule.assignment inner)) :=
    .map (simpleStatement (assignment h)) _
  refine .bind .current fun token => ?_
  dsimp only
  split
  · exact hsimple
  · exact hsimple
  · exact hsimple
  · exact hsimple
  · exact .ite hsimple refuseUnexpected
  · refine .ite (invocation _) (.ite (invocation _) (.ite refuseUnexpected (command (arguments h))))
  · refine .ite (ruleDefinition (assignment h) hbody) (.ite (actionDefinition hbody) ?_)
    exact .ite (conditionSet (assignment h)) (.ite (declaration (operation h)) (.ite hsimple refuseUnexpected))
  · exact refuseUnexpected

theorem statement (level : Nat) : Composed (statement level) := by
  induction level with
  | zero => exact .refuse rfl rfl
  | succ level ih =>
      exact .bind (bareStatement (expression level) ih) fun _ => .bind (.passWord _ _) fun _ => .pure _

variable {embedding : Rule SimpleStatement}

theorem attributeValue (h : Composed embedding) : Composed (attributeValue embedding) := by
  refine .look fun token => ?_
  split
  · exact .bind .shift fun _ => .pure _
  · exact map h _ _
  · exact .refuse rfl fun _ => id

theorem oneAttribute (h : Composed embedding) : Composed (oneAttribute embedding) := by
  refine .look fun name => ?_
  split
  · exact .bind .shift fun _ => .pure _
  · refine .bind .shift fun _ => .bind (passWord _ _ _) fun passed => ?_
    refine .ite (.bind (map (attributeValue h) _ _) fun _ => ?_) (.bind (.pure _) fun _ => ?_)
    · exact .bind (.spanSince _) fun _ => .pure _
    · exact .bind (.spanSince _) fun _ => .pure _
  · exact .refuse rfl fun _ => id

theorem attributes (h : Composed embedding) (opening closing : TokenKind) :
    Composed (attributes embedding opening closing) := by
  refine .bind (.expect _) fun _ => .bind (untilClosed (oneAttribute h) (fun _ => rfl) fun _ => rfl) fun _ => ?_
  exact .bind (.expect _) fun _ => .pure _

theorem texts (h : Composed embedding) : Composed (texts embedding) := by
  refine .repeatWhile fun token rule hrule => ?_
  split at hrule
  · cases hrule
    exact .bind .shift fun _ => .pure _
  · cases hrule
    exact .map h _
  · cases hrule

theorem answerOption (h : Composed embedding) : Composed (answerOption embedding) := by
  refine .bind .current fun _ => .bind (attributes h _ _) fun _ => .bind (texts h) fun _ => ?_
  exact .bind (.spanSince _) fun _ => .pure _

theorem question (h : Composed embedding) : Composed (question embedding) := by
  refine .bind .current fun _ => .bind (attributes h _ _) fun _ => .bind .current fun _ => .ite ?_ ?_
  · exact .bind (.spanSince _) fun _ => .pure _
  · refine .bind (texts h) fun _ => .bind (.repeatWhile fun token rule hrule => ?_) fun _ => ?_
    · split at hrule
      · cases hrule
      · cases hrule
        exact answerOption h
    · exact .bind (.spanSince _) fun _ => .pure _

theorem interlude (hbody : Composed body) : Composed (interlude body) := by
  refine .bind (.expect _) fun _ => .bind (untilClosed hbody (fun _ => rfl) fun _ => rfl) fun _ => ?_
  exact .bind (.expect _) fun _ => .bind (.spanSince _) fun _ => .pure _

theorem component (maxNesting : Nat) : Composed (component maxNesting) := by
  refine .bind .current fun token => ?_
  split
  · exact question (embedded (expression maxNesting))
  · exact interlude (statement (maxNesting + 1))
  · exact refuseUnexpected

/-- All of a document behind its first token. -/
theorem components (maxNesting : Nat) : Composed (Rule.repeatWhile fun token =>
    if token.kind = .endOfInput then none else some (Rule.component maxNesting)) := by
  refine .repeatWhile fun token rule hrule => ?_
  split at hrule
  · cases hrule
  · cases hrule
    exact component maxNesting

end Composed

end Rule

end Questionnaire
