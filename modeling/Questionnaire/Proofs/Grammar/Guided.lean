import Questionnaire.Proofs.Grammar.Reading
import Questionnaire.Proofs.Token.Delimiters

/-! How the rules of the grammar follow the modes of a lexer. A rule for an expression or a statement takes no
delimiter, so that it stays in its mode; one for a component goes through the modes that its marks lead to. Where a rule
refuses the token ahead, no component begins with it. Budgets are charged only within rules that put them back. -/

namespace Questionnaire

variable {mode after : Mode} {kind : TokenKind}

/-- Only delimiters turn the mode. -/
theorem Mode.Turns.eq_of_delimiter? (h : mode.Turns kind after) (hkind : kind.delimiter? = none) : after = mode := by
  cases h with
  | textRun => rfl
  | attributeKeyword => rfl
  | logical => rfl
  | shared => rfl
  | endOfInput => rfl
  | _ => cases hkind

/-- The mode that a token of the kind turns another to. -/
def Mode.turned (mode : Mode) : TokenKind → Mode
  | .questionOpen => .questionAttributes
  | .optionOpen => .optionAttributes
  | .logicOpen => .logic
  | .embeddedOpen => .embedded mode.resume
  | .questionClose => .text
  | .optionClose => .text
  | .logicClose => .text
  | .embeddedClose => match mode with
    | .embedded resume => resume.mode
    | other => other
  | _ => mode

theorem Mode.Turns.eq_turned (h : mode.Turns kind after) : after = mode.turned kind := by
  cases h with
  | embeddedOpen resume => cases resume <;> rfl
  | logical _ hkind =>
      simp only [List.mem_cons, List.not_mem_nil, or_false] at hkind
      rcases hkind with rfl | rfl | rfl | rfl | rfl <;> rfl
  | shared _ hkind =>
      simp only [List.mem_cons, List.not_mem_nil, or_false] at hkind
      rcases hkind with rfl | rfl | rfl <;> rfl
  | _ => rfl

theorem Mode.Turns.unique {other : Mode} (h : mode.Turns kind after) (hother : mode.Turns kind other) :
    other = after :=
  hother.eq_turned.trans h.eq_turned.symm

/-- No component begins outside of free text. -/
theorem Mode.Turns.not_opens (h : mode.Turns kind after) (hmode : mode ≠ .text) :
    kind ≠ .questionOpen ∧ kind ≠ .logicOpen := by
  constructor
  · rintro rfl
    cases h with
    | questionOpen => exact hmode rfl
    | logical _ hkind => exact absurd hkind (by decide)
    | shared _ hkind => exact absurd hkind (by decide)
  · rintro rfl
    cases h with
    | logicOpen => exact hmode rfl
    | logical _ hkind => exact absurd hkind (by decide)
    | shared _ hkind => exact absurd hkind (by decide)

namespace Rule

/-- No component begins with the token ahead: none begins in the mode, or the token is known. -/
def NoneOpens (mode : Mode) (ahead : Option Token) : Prop :=
  mode ≠ .text ∨ ∃ token ∈ ahead, opensComponent token = false

/-- The rule goes from one mode to another, where the token ahead may be known. Whether it may charge the budget that it
is run with is told first. -/
inductive Guided : {α : Type} → Bool → Mode → Option Token → Rule α → Mode → Prop where
  | pure {α : Type} {spends : Bool} {mode : Mode} {ahead : Option Token} (value : α) :
      Guided spends mode ahead (pure value) mode
  | bind {α β : Type} {spends : Bool} {before between after : Mode} {ahead : Option Token} {rule : Rule α}
      {next : α → Rule β} (hrule : Guided spends before ahead rule between)
      (hnext : ∀ value, Guided spends between none (next value) after) :
      Guided spends before ahead (rule >>= next) after
  | look {β : Type} {spends : Bool} {before after : Mode} {ahead : Option Token} {next : Token → Rule β}
      (hnext : ∀ token, (∀ known ∈ ahead, token = known) → Guided spends before (some token) (next token) after) :
      Guided spends before ahead (current >>= next) after
  | shift {spends : Bool} {before after : Mode} {token : Token}
      (hturn : ∀ next, before.Turns token.kind next → next = after) : Guided spends before (some token) shift after
  | charge {β : Type} {before after : Mode} {ahead : Option Token} {next : Unit → Rule β}
      (hmode : NoneOpens before ahead) (hnext : Guided true before ahead (next ()) after) :
      Guided true before ahead (charge >>= next) after
  | spanSince {spends : Bool} {mode : Mode} {ahead : Option Token} (first : Token) :
      Guided spends mode ahead (spanSince first) mode
  | throw {α : Type} {spends : Bool} {before after : Mode} {ahead : Option Token} (hmode : NoneOpens before ahead)
      (diagnostic : Diagnostic) : Guided spends before ahead (throw (α := α) diagnostic) after
  | refuse {α : Type} {spends : Bool} {before after : Mode} {ahead : Option Token} (hmode : NoneOpens before ahead)
      (fault : Fault) : Guided spends before ahead (refuse (α := α) fault) after
  | bracketed {α : Type} {spends : Bool} {before after : Mode} {ahead : Option Token} {rule : Rule α}
      (hmode : NoneOpens before ahead) (hrule : Guided spends before ahead rule after) :
      Guided spends before ahead (bracketed rule) after
  | budgeted {α : Type} {spends : Bool} {before after : Mode} {ahead : Option Token} {rule : Rule α}
      (hrule : Guided true before ahead rule after) : Guided spends before ahead (budgeted rule) after
  | repeatWhile {α : Type} {spends : Bool} {mode : Mode} {ahead : Option Token} {offer : Token → Option (Rule α)}
      (hoffer : ∀ token, ∀ rule ∈ offer token, Guided spends mode (some token) rule mode) :
      Guided spends mode ahead (repeatWhile offer) mode

namespace Guided

variable {α β : Type} {spends : Bool} {before : Mode} {ahead : Option Token} {token : Token} {rule other : Rule α}

theorem ite {c : Prop} [Decidable c] (h : c → Guided spends before ahead rule after)
    (hother : ¬c → Guided spends before ahead other after) :
    Guided spends before ahead (if c then rule else other) after := by
  by_cases hc : c
  · rw [if_pos hc]
    exact h hc
  · rw [if_neg hc]
    exact hother hc

theorem map (h : Guided spends before ahead rule after) (f : α → β) :
    Guided spends before ahead (f <$> rule) after := by
  have hbind : Guided spends before ahead (rule >>= fun value => Pure.pure (f value)) after :=
    .bind h fun value => .pure (f value)
  rwa [bind_pure_comp] at hbind

theorem shift_of_kind (hkind : token.kind = kind) (hnone : kind.delimiter? = none) :
    Guided spends mode (some token) Rule.shift mode :=
  .shift fun _ hturn => hturn.eq_of_delimiter? (hkind ▸ hnone)

/-- A token of the kind is taken, which turns the mode, or refused. -/
theorem expect (hturn : ∀ next, before.Turns kind next → next = after)
    (hother : ∀ token, (∀ known ∈ ahead, token = known) → token.kind ≠ kind → NoneOpens before (some token)) :
    Guided spends before ahead (expect kind) after := by
  refine .look fun token hknown => .ite (fun hkind => ?_) fun hkind => .refuse (hother token hknown hkind) _
  exact .bind (.shift (hkind ▸ hturn)) fun _ => .pure _

theorem refuseUnexpected (h : ∀ token, (∀ known ∈ ahead, token = known) → NoneOpens before (some token)) :
    Guided spends before ahead (refuseUnexpected (α := α)) after :=
  .look fun token hknown => .refuse (h token hknown) _

end Guided

/-- The rule stays in the mode, whatever is ahead. -/
def Stays {α : Type} (spends : Bool) (mode : Mode) (rule : Rule α) : Prop :=
  ∀ ahead, Guided spends mode ahead rule mode

namespace Stays

variable {α β : Type} {spends : Bool} {rule : Rule α}

theorem pure (value : α) : Stays spends mode (pure value) := fun _ => .pure value

theorem bind {next : α → Rule β} (hrule : Stays spends mode rule) (hnext : ∀ value, Stays spends mode (next value)) :
    Stays spends mode (rule >>= next) := fun ahead => .bind (hrule ahead) fun value => hnext value none

theorem look {next : Token → Rule β} (hnext : ∀ token, Guided spends mode (some token) (next token) mode) :
    Stays spends mode (current >>= next) := fun _ => .look fun token _ => hnext token

theorem current_bind {next : Token → Rule β} (hnext : ∀ token, Stays spends mode (next token)) :
    Stays spends mode (current >>= next) := .look fun token => hnext token _

theorem spanSince (first : Token) : Stays spends mode (spanSince first) := fun _ => .spanSince first

theorem budgeted (h : Stays true mode rule) : Stays spends mode (budgeted rule) := fun ahead => .budgeted (h ahead)

theorem map (h : Stays spends mode rule) (f : α → β) : Stays spends mode (f <$> rule) := fun ahead => .map (h ahead) f

theorem passWord (hkind : kind.delimiter? = none) (word : String) : Stays spends mode (passWord kind word) := by
  refine .look fun token => .ite (fun hspells => ?_) fun _ => .pure _
  exact .bind (.shift_of_kind (Token.spells_iff.mp hspells).1 hkind) fun _ => .pure _

theorem simpleStatement {inner : Rule Expr} (h : Stays true mode inner) : Stays spends mode (simpleStatement inner) :=
  .current_bind fun _ => .bind (.budgeted h) fun _ => .bind (.spanSince _) fun _ => .pure _

section

variable (hmode : mode ≠ .text)

include hmode

theorem refuse (fault : Fault) : Stays spends mode (refuse (α := α) fault) := fun _ => .refuse (.inl hmode) fault

theorem refuseUnexpected : Stays spends mode (refuseUnexpected (α := α)) :=
  fun _ => .refuseUnexpected fun _ _ => .inl hmode

theorem bracketed (h : Stays spends mode rule) : Stays spends mode (bracketed rule) :=
  fun ahead => .bracketed (.inl hmode) (h ahead)

theorem expect (hkind : kind.delimiter? = none) : Stays spends mode (expect kind) :=
  fun _ => .expect (fun _ hturn => hturn.eq_of_delimiter? hkind) fun _ _ _ => .inl hmode

theorem expectWord (hkind : kind.delimiter? = none) (word : String) : Stays spends mode (expectWord kind word) := by
  refine .look fun token => .ite (fun hspells => ?_) fun _ => .refuse (.inl hmode) _
  exact .bind (.shift_of_kind (Token.spells_iff.mp hspells).1 hkind) fun _ => .pure _

variable {inner : Rule Expr}

theorem arguments (h : Stays true mode inner) : Stays true mode (arguments inner) := by
  refine .bracketed hmode (.bind (.expectWord hmode rfl _) fun _ => .current_bind fun token => ?_)
  have hclose (answers : List Expr) :
      Stays true mode (do let _ ← Rule.expectWord .punctuation ")"; Pure.pure answers) :=
    .bind (.expectWord hmode rfl _) fun _ => .pure _
  refine fun _ => .ite (fun _ => .bind (.pure _) fun _ => hclose _ _) fun _ => .bind (h _) fun first => ?_
  refine .bind (.repeatWhile fun token rule hrule => ?_) fun others => .bind (.pure _) fun _ => hclose _ _
  split at hrule
  next hspells =>
    cases hrule
    exact .bind (.shift_of_kind (Token.spells_iff.mp hspells).1 rfl) fun _ => h _
  next => cases hrule

theorem members : Stays true mode members := by
  refine fun _ => .repeatWhile fun token rule hrule => ?_
  split at hrule
  next hspells =>
    cases hrule
    refine .charge (.inl hmode) (.bind (.shift_of_kind (Token.spells_iff.mp hspells).1 rfl) fun _ => ?_)
    refine .look fun name _ => ?_
    exact .ite (fun hname => .bind (.shift_of_kind hname rfl) fun _ => .pure _) fun _ => .refuse (.inl hmode) _
  next => cases hrule

theorem withMembers (container : Expr) : Stays true mode (withMembers container) :=
  fun _ => .ite (fun _ => .bind (members hmode _) fun _ => .pure _) fun _ => .pure _

theorem group {token : Token} (hkind : token.kind = .punctuation) (h : Stays true mode inner) :
    Guided true mode (some token) (group inner) mode := by
  refine .bracketed (.inl hmode) (.look fun first hfirst => ?_)
  rw [← hfirst token rfl] at hkind
  refine .bind (.shift_of_kind hkind rfl) fun _ => .bind (h _) fun _ => ?_
  exact .bind (expectWord hmode rfl _ _) fun _ => .pure _

theorem answerMode : Stays true mode answerMode := by
  refine .look fun token => ?_
  split
  · refine .ite (fun hkind => ?_) fun _ => refuseUnexpected hmode _
    exact .bind (.shift_of_kind hkind rfl) fun _ => .pure _
  · exact refuseUnexpected hmode _

theorem answered (h : Stays true mode inner) : Stays true mode (answered inner) := by
  refine .bind (.expectWord hmode rfl _) fun _ => .bind (.expectWord hmode rfl _) fun _ => ?_
  refine .bind (.expect hmode rfl) fun _ => .bind (answerMode hmode) fun _ => ?_
  exact .bind (arguments hmode h) fun _ => .bind (.spanSince _) fun _ => .pure _

theorem number {token : Token} (hkind : token.kind = .number) : Guided true mode (some token) number mode := by
  refine .look fun first hfirst => ?_
  rw [← hfirst token rfl] at hkind
  refine .bind (.shift_of_kind hkind rfl) fun _ => ?_
  split
  · exact .pure _
  · exact .throw (.inl hmode) _

theorem operand (h : Stays true mode inner) : Stays true mode (operand inner) := by
  refine .look fun token => ?_
  split
  next hkind =>
    exact .ite (fun _ => .bind (group hmode hkind h) fun _ => withMembers hmode _ _) fun _ => refuseUnexpected hmode _
  next hkind => exact .bind (.shift_of_kind hkind rfl) fun _ => withMembers hmode _ _
  next hkind => exact number hmode hkind
  next hkind => exact .bind (.shift_of_kind hkind rfl) fun _ => .pure _
  next hkind => exact .bind (.shift_of_kind hkind rfl) fun _ => .pure _
  next => exact .ite (fun _ => answered hmode h _) fun _ => refuseUnexpected hmode _
  next => exact refuseUnexpected hmode _

theorem links (h : Stays true mode inner) : Stays true mode (links inner) := by
  refine fun _ => .repeatWhile fun token rule hrule => ?_
  split at hrule
  next hkind =>
    obtain ⟨op, -, rfl⟩ := Option.map_eq_some_iff.mp hrule
    refine .charge (.inl hmode) (.bind (.shift_of_kind hkind rfl) fun _ => ?_)
    exact .bind (operand hmode h _) fun _ => .pure _
  next => cases hrule

theorem operation (h : Stays true mode inner) : Stays true mode (operation inner) :=
  .bind (operand hmode h) fun _ => .bind (links hmode h) fun _ => .pure _

theorem assignment (h : Stays true mode inner) : Stays true mode (assignment inner) := by
  refine .bind (operation hmode h) fun left => .look fun token => .ite (fun hspells => ?_) fun _ => .pure _
  split
  · refine .bind (.shift_of_kind (Token.spells_iff.mp hspells).1 rfl) fun _ => ?_
    exact .bind (operation hmode h _) fun _ => .pure _
  · exact refuse hmode _ _

theorem expression (level : Nat) : Stays true mode (expression level) := by
  induction level with
  | zero => exact refuse hmode _
  | succ level ih => exact assignment hmode ih

/-- Rounds up to a token that closes them, before which the input may not end. -/
theorem untilClosed {closes : Token → Prop} [DecidablePred closes] {what : Token → Fault} (h : Stays spends mode rule) :
    Stays spends mode (Rule.repeatWhile fun token => if closes token then none
      else if token.kind = .endOfInput then some (Rule.refuse (what token)) else some rule) := by
  refine fun _ => .repeatWhile fun token offered hoffered => ?_
  split at hoffered
  · cases hoffered
  · split at hoffered
    · cases hoffered
      exact refuse hmode _ _
    · cases hoffered
      exact h _

variable {body : Rule Statement}

theorem block (h : Stays spends mode body) : Stays spends mode (block body) := by
  refine .bracketed hmode (.bind (.expectWord hmode rfl _) fun _ => .bind (untilClosed hmode h) fun _ => ?_)
  exact .bind (.expectWord hmode rfl _) fun _ => .bind (.spanSince _) fun _ => .pure _

theorem condition (h : Stays true mode inner) : Stays spends mode (condition inner) :=
  .bind (.expectWord hmode rfl _) fun _ => simpleStatement h

theorem conditions (h : Stays true mode inner) (kind : TokenKind) (word : String) :
    Stays spends mode (conditions inner kind word) := by
  refine .bind (condition hmode h) fun first => ?_
  refine .bind (fun _ => .repeatWhile fun token rule hrule => ?_) fun _ => .pure _
  split at hrule
  · cases hrule
  · cases hrule
    exact condition hmode h _

theorem ruleDefinition (h : Stays true mode inner) (hbody : Stays spends mode body) :
    Stays spends mode (ruleDefinition inner body) := by
  refine .bind (.expectWord hmode rfl _) fun _ => .bind (.expect hmode rfl) fun _ => ?_
  refine .bind (.expectWord hmode rfl _) fun _ => .bind (conditions hmode h _ _) fun _ => ?_
  exact .bind (block hmode hbody) fun _ => .bind (.spanSince _) fun _ => .pure _

theorem actionDefinition (hbody : Stays spends mode body) : Stays spends mode (actionDefinition body) := by
  refine .bind (.expectWord hmode rfl _) fun _ => .bind (.expect hmode rfl) fun _ => ?_
  exact .bind (block hmode hbody) fun _ => .bind (.spanSince _) fun _ => .pure _

theorem conditionSet (h : Stays true mode inner) : Stays spends mode (conditionSet inner) := by
  refine .bind (.expectWord hmode rfl _) fun _ => .bind (.expect hmode rfl) fun _ => ?_
  refine .bind (.expectWord hmode rfl _) fun _ => .bind (conditions hmode h _ _) fun _ => ?_
  exact .bind (.expectWord hmode rfl _) fun _ => .bind (.spanSince _) fun _ => .pure _

theorem declaration (h : Stays true mode inner) : Stays spends mode (declaration inner) := by
  refine .bind (.expectWord hmode rfl _) fun _ => .bind (.expect hmode rfl) fun _ => ?_
  refine .bind (.passWord rfl _) fun passed => fun _ => .ite (fun _ => ?_) fun _ => ?_
  · exact .bind (map (.budgeted h) _ _) fun _ => .bind (.spanSince _) fun _ => .pure _
  · exact .bind (.pure _) fun _ => .bind (.spanSince _) fun _ => .pure _

theorem invocation {token : Token} (hkind : token.kind = .callKeyword) (form : Token → Span → Statement) :
    Guided spends mode (some token) (invocation form) mode := by
  refine .look fun first hfirst => ?_
  rw [← hfirst token rfl] at hkind
  refine .bind (.shift_of_kind hkind rfl) fun _ => .bind (expect hmode rfl _) fun _ => ?_
  exact .bind (.spanSince _) fun _ => .pure _

theorem command {list : Rule (List Expr)} (h : Stays true mode list) : Stays spends mode (command list) :=
  .bind (.expect hmode rfl) fun _ => .bind (.budgeted h) fun _ => .bind (.spanSince _) fun _ => .pure _

theorem bareStatement (h : Stays true mode inner) (hbody : Stays spends mode body) :
    Stays spends mode (bareStatement inner body) := by
  have hsimple : Stays spends mode (Statement.simple <$> Rule.simpleStatement (Rule.assignment inner)) :=
    .map (simpleStatement (assignment hmode h)) _
  have hrefuse : Stays spends mode (Rule.refuseUnexpected (α := Statement)) := refuseUnexpected hmode
  refine .look fun token => ?_
  dsimp only
  split
  · exact hsimple _
  · exact hsimple _
  · exact hsimple _
  · exact hsimple _
  · exact .ite (fun _ => hsimple _) fun _ => hrefuse _
  next hkind =>
    refine .ite (fun _ => invocation hmode hkind _) fun _ => .ite (fun _ => invocation hmode hkind _) fun _ => ?_
    exact .ite (fun _ => hrefuse _) fun _ => command hmode (arguments hmode h) _
  next =>
    refine .ite (fun _ => ruleDefinition hmode (assignment hmode h) hbody _) fun _ => ?_
    refine .ite (fun _ => actionDefinition hmode hbody _) fun _ => ?_
    refine .ite (fun _ => conditionSet hmode (assignment hmode h) _) fun _ => ?_
    refine .ite (fun _ => declaration hmode (operation hmode h) _) fun _ => ?_
    exact .ite (fun _ => hsimple _) fun _ => hrefuse _
  next => exact hrefuse _

theorem statement (level : Nat) : Stays spends mode (statement level) := by
  induction level with
  | zero => exact refuse hmode _
  | succ level ih =>
      exact .bind (bareStatement hmode (expression hmode level) ih) fun _ => .bind (.passWord rfl _) fun _ => .pure _

end

end Stays

namespace Guided

variable {spends : Bool} {ahead : Option Token} {token : Token} {embedding : Rule SimpleStatement}

theorem noneOpens_of_known (h : opensComponent token = false) : NoneOpens mode (some token) := .inr ⟨token, rfl, h⟩

theorem embedded {resume : Resume} {inner : Rule Expr} (hkind : token.kind = .embeddedOpen)
    (h : ∀ mode ≠ Mode.text, Stays true mode inner) :
    Guided spends resume.mode (some token) (embedded inner) resume.mode := by
  have hinside : Mode.embedded resume ≠ .text := Mode.noConfusion
  have hopens : Guided spends resume.mode (some token) (Rule.expect .embeddedOpen) (.embedded resume) := by
    refine .expect (fun _ => (Mode.Turns.embeddedOpen resume).unique) fun first hfirst hother => ?_
    rw [hfirst token rfl] at hother
    exact absurd hkind hother
  have hcloses : Guided spends (.embedded resume) none (Rule.expect .embeddedClose) resume.mode :=
    .expect (fun _ => (Mode.Turns.embeddedClose resume).unique) fun _ _ _ => .inl hinside
  refine .bracketed (noneOpens_of_known (by rw [opensComponent, hkind]; rfl)) (.bind hopens fun _ => ?_)
  exact .bind (.budgeted (h _ hinside _)) fun _ => .bind hcloses fun _ => .bind (.spanSince _) fun _ => .pure _

theorem attributeValue (hmode : mode ≠ .text)
    (h : ∀ token, token.kind = .embeddedOpen → Guided spends mode (some token) embedding mode) :
    Guided spends mode ahead (attributeValue embedding) mode := by
  refine .look fun token _ => ?_
  split
  next hkind => exact .bind (.shift_of_kind hkind rfl) fun _ => .pure _
  next hkind => exact map (h token hkind) _
  next => exact .refuse (.inl hmode) _

theorem oneAttribute (hmode : mode ≠ .text)
    (h : ∀ token, token.kind = .embeddedOpen → Guided spends mode (some token) embedding mode) :
    Guided spends mode ahead (oneAttribute embedding) mode := by
  refine .look fun name _ => ?_
  split
  next hkind => exact .bind (.shift_of_kind hkind rfl) fun _ => .pure _
  next hkind =>
    refine .bind (.shift_of_kind hkind rfl) fun _ => .bind (Stays.passWord rfl _ _) fun passed => ?_
    refine .ite (fun _ => .bind (map (attributeValue hmode h) _) fun _ => ?_) fun _ => .bind (.pure _) fun _ => ?_
    · exact .bind (.spanSince _) fun _ => .pure _
    · exact .bind (.spanSince _) fun _ => .pure _
  next => exact .refuse (.inl hmode) _

/-- Attributes between two marks, the first of which leads out of free text and the second one back. -/
theorem attributes {opening closing : TokenKind} (hmode : mode ≠ .text)
    (h : ∀ token, token.kind = .embeddedOpen → Guided spends mode (some token) embedding mode)
    (hopening : Mode.Turns .text opening mode) (hclosing : mode.Turns closing .text)
    (hother : token.kind ≠ opening → opensComponent token = false) :
    Guided spends .text (some token) (attributes embedding opening closing) .text := by
  refine .bind (.expect (fun _ => hopening.unique) fun first hfirst hkind => ?_) fun _ => ?_
  · rw [hfirst token rfl] at hkind ⊢
    exact noneOpens_of_known (hother hkind)
  · refine .bind (Stays.untilClosed hmode (fun _ => oneAttribute hmode h) _) fun _ => ?_
    exact .bind (.expect (fun _ => hclosing.unique) fun _ _ _ => .inl hmode) fun _ => .pure _

theorem texts (h : ∀ token, token.kind = .embeddedOpen → Guided spends .text (some token) embedding .text) :
    Guided spends .text ahead (texts embedding) .text := by
  refine .repeatWhile fun token rule hrule => ?_
  split at hrule
  next hkind =>
    cases hrule
    exact .bind (.shift_of_kind hkind rfl) fun _ => .pure _
  next hkind =>
    cases hrule
    exact map (h token hkind) _
  next => cases hrule

/-- An expression may be embedded in free text and in both languages of attributes. -/
def Embeds (spends : Bool) (embedding : Rule SimpleStatement) : Prop :=
  ∀ (resume : Resume) (token : Token), token.kind = .embeddedOpen →
    Guided spends resume.mode (some token) embedding resume.mode

theorem answerOption (h : Embeds spends embedding) (hnone : opensComponent token = false) :
    Guided spends .text (some token) (answerOption embedding) .text := by
  refine .look fun first hfirst => ?_
  rw [hfirst token rfl]
  refine .bind (attributes Mode.noConfusion (h .optionAttributes) .optionOpen .optionClose fun _ => hnone) fun _ => ?_
  exact .bind (texts (h .text)) fun _ => .bind (.spanSince _) fun _ => .pure _

theorem question (h : Embeds spends embedding) (hkind : token.kind = .questionOpen) :
    Guided spends .text (some token) (question embedding) .text := by
  refine .look fun first hfirst => ?_
  rw [hfirst token rfl]
  refine .bind (attributes Mode.noConfusion (h .questionAttributes) .questionOpen .questionClose fun hother =>
    absurd hkind hother) fun _ => .look fun next _ => .ite (fun _ => ?_) fun _ => ?_
  · exact .bind (.spanSince _) fun _ => .pure _
  · refine .bind (texts (h .text)) fun _ => .bind (.repeatWhile fun token rule hrule => ?_) fun _ => ?_
    · split at hrule
      · cases hrule
      next hnone =>
        cases hrule
        rw [Bool.or_eq_true, not_or, Bool.not_eq_true, Bool.not_eq_true] at hnone
        exact answerOption h hnone.2
    · exact .bind (.spanSince _) fun _ => .pure _

theorem interlude {body : Rule Statement} (h : Stays spends .logic body) (hkind : token.kind = .logicOpen) :
    Guided spends .text (some token) (interlude body) .text := by
  have hmode : Mode.logic ≠ .text := Mode.noConfusion
  refine .bind (.expect (fun _ => Mode.Turns.logicOpen.unique) fun first hfirst hother => ?_) fun _ => ?_
  · rw [hfirst token rfl] at hother
    exact absurd hkind hother
  · refine .bind (Stays.untilClosed hmode h _) fun _ => .bind ?_ fun _ => .bind (.spanSince _) fun _ => .pure _
    exact .expect (fun _ => Mode.Turns.logicClose.unique) fun _ _ _ => .inl hmode

theorem component (maxNesting : Nat) : Guided spends .text ahead (component maxNesting) .text := by
  refine .look fun token _ => ?_
  split
  next hkind =>
    refine question (fun resume token hopens => embedded hopens fun mode hmode => ?_) hkind
    exact Stays.expression hmode maxNesting
  next hkind => exact interlude (Stays.statement Mode.noConfusion _) hkind
  next hquestion hlogic =>
    refine .refuseUnexpected fun first hfirst => noneOpens_of_known ?_
    rw [hfirst token rfl, opensComponent, Bool.or_eq_false_iff, beq_eq_false_iff_ne, beq_eq_false_iff_ne]
    exact ⟨hquestion, hlogic⟩

/-- All of a document behind its first token. -/
theorem components (maxNesting : Nat) : Guided spends .text ahead (Rule.repeatWhile fun token =>
    if token.kind = .endOfInput then none else some (Rule.component maxNesting)) .text := by
  refine .repeatWhile fun token rule hrule => ?_
  split at hrule
  · cases hrule
  · cases hrule
    exact component maxNesting

end Guided

end Rule

end Questionnaire
