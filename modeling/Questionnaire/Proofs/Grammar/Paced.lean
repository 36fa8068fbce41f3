import Questionnaire.Proofs.Grammar.Climbing
import Questionnaire.Proofs.Grammar.Runs

/-! How the rules of the grammar come to an end. Every round of a loop takes an item before it answers, and a rule that
goes deeper opens a bracket first. Two versions of a rule that are tied at different levels of brackets are told apart
by no parser whose limits leave both of them room, and neither is what stops a reading. -/

namespace Questionnaire

variable {α β : Type}

/-- What an expression is charged for: an operator, or the point before the name of a member. -/
def Token.IsLink (token : Token) : Prop := token.binaryOp?.isSome = true ∨ token.spells .punctuation "." = true

/-- No more brackets than that can be opened from the parser on. -/
def Parser.OpensAtMost (room : Nat) (parser : Parser) : Prop := parser.limits.maxNesting ≤ parser.depth + room

theorem Parser.opensAtMost_maxNesting (p : Parser) : p.OpensAtMost p.limits.maxNesting := Nat.le_add_left _ _

namespace Rule

/-- To take the token ahead is to move, if the rule has to: the token is known, and not the end of input. -/
def Advances (moves : Bool) (ahead : Option Token) : Prop :=
  moves = true → ∃ token ∈ ahead, token.kind ≠ .endOfInput

/-- Two rules that are put together in the same way, down to the brackets for which there is room. Whether they may
charge the budget that they are run with is told first, then whether they have taken an item when they answer, and last
the token ahead, where it is known. -/
inductive Paced : {α : Type} → Nat → Bool → Bool → Option Token → Rule α → Rule α → Prop where
  | pure {α : Type} {room : Nat} {spends : Bool} {ahead : Option Token} (value : α) :
      Paced room spends false ahead (pure value) (pure value)
  | bind {α β : Type} {room : Nat} {spends moves : Bool} {ahead : Option Token} {rule rule' : Rule α}
      {next next' : α → Rule β} (hrule : Paced room spends moves ahead rule rule')
      (hnext : ∀ value, Paced room spends false none (next value) (next' value)) :
      Paced room spends moves ahead (rule >>= next) (rule' >>= next')
  | look {β : Type} {room : Nat} {spends moves : Bool} {ahead : Option Token} {next next' : Token → Rule β}
      (hnext : ∀ token, (∀ known ∈ ahead, token = known) →
        Paced room spends moves (some token) (next token) (next' token)) :
      Paced room spends moves ahead (current >>= next) (current >>= next')
  | start {room : Nat} {spends : Bool} {ahead : Option Token} : Paced room spends false ahead start start
  | shift {room : Nat} {spends moves : Bool} {ahead : Option Token} (hmoves : Advances moves ahead) :
      Paced room spends moves ahead shift shift
  | charge {β : Type} {room : Nat} {moves : Bool} {token : Token} {next next' : Unit → Rule β} (hlink : token.IsLink)
      (hnext : Paced room true moves (some token) (next ()) (next' ())) :
      Paced room true moves (some token) (charge >>= next) (charge >>= next')
  | spanSince {room : Nat} {spends : Bool} {ahead : Option Token} (first : Token) :
      Paced room spends false ahead (spanSince first) (spanSince first)
  | throw {α : Type} {room : Nat} {spends moves : Bool} {ahead : Option Token} (diagnostic : Diagnostic) :
      Paced room spends moves ahead (throw (α := α) diagnostic) (throw diagnostic)
  | refuse {α : Type} {room : Nat} {spends moves : Bool} {ahead : Option Token} (fault : Fault) :
      Paced room spends moves ahead (refuse (α := α) fault) (refuse fault)
  | bracketed {α : Type} {room : Nat} {spends moves : Bool} {ahead : Option Token} {rule rule' : Rule α}
      (hrule : ∀ below, room = below + 1 → Paced below spends moves ahead rule rule') :
      Paced room spends moves ahead (bracketed rule) (bracketed rule')
  | budgeted {α : Type} {room : Nat} {spends moves : Bool} {ahead : Option Token} {rule rule' : Rule α}
      (hrule : Paced room true moves ahead rule rule') : Paced room spends moves ahead (budgeted rule) (budgeted rule')
  | repeatWhile {α : Type} {room : Nat} {spends : Bool} {ahead : Option Token} {offer offer' : Token → Option (Rule α)}
      (hsame : ∀ token, (offer' token).isSome = (offer token).isSome)
      (hoffer : ∀ token, ∀ rule ∈ offer token, ∀ rule' ∈ offer' token, Paced room spends true (some token) rule rule') :
      Paced room spends false ahead (repeatWhile offer) (repeatWhile offer')

/-- The two rules are paced whatever is ahead, and take an item before they answer. -/
def Strides (room : Nat) (spends : Bool) (rule rule' : Rule α) : Prop :=
  ∀ moves ahead, Paced room spends moves ahead rule rule'

/-- The two rules are paced behind one more bracket, if there is room for it. -/
def Deeper (room : Nat) (spends : Bool) (rule rule' : Rule α) : Prop :=
  ∀ below, room = below + 1 → Strides below spends rule rule'

/-- The same level, or two levels that there is no room to reach. -/
def SameLevels (room level level' : Nat) : Prop := level = level' ∨ room < level ∧ room < level'

namespace Paced

variable {room : Nat} {spends moves : Bool} {ahead : Option Token} {token : Token} {rule rule' : Rule α}
  {inner inner' : Rule Expr} {body body' : Rule Statement} {embedding embedding' : Rule SimpleStatement}
  {level level' : Nat}

theorem ite {c : Prop} [Decidable c] {other other' : Rule α} (h : c → Paced room spends moves ahead rule rule')
    (hother : ¬c → Paced room spends moves ahead other other') :
    Paced room spends moves ahead (if c then rule else other) (if c then rule' else other') := by
  by_cases hc : c
  · rw [if_pos hc, if_pos hc]
    exact h hc
  · rw [if_neg hc, if_neg hc]
    exact hother hc

theorem map (h : Paced room spends moves ahead rule rule') (f : α → β) :
    Paced room spends moves ahead (f <$> rule) (f <$> rule') := by
  have hbind : Paced room spends moves ahead (rule >>= fun value => Pure.pure (f value))
      (rule' >>= fun value => Pure.pure (f value)) := .bind h fun value => .pure (f value)
  rwa [bind_pure_comp, bind_pure_comp] at hbind

theorem advances_of_kind {kind : TokenKind} (hkind : token.kind = kind) (hne : kind ≠ .endOfInput) :
    Advances moves (some token) :=
  fun _ => ⟨token, rfl, hkind ▸ hne⟩

theorem shift_of_kind {kind : TokenKind} (hkind : token.kind = kind) (hne : kind ≠ .endOfInput) :
    Paced room spends moves (some token) Rule.shift Rule.shift :=
  .shift (advances_of_kind hkind hne)

theorem shift_of_known (h : Advances moves ahead) (hknown : ∀ known ∈ ahead, token = known) :
    Paced room spends moves (some token) Rule.shift Rule.shift := by
  refine .shift fun hmove => ?_
  obtain ⟨known, hahead, hkind⟩ := h hmove
  exact ⟨token, rfl, hknown known hahead ▸ hkind⟩

theorem refuseUnexpected : Strides room spends (refuseUnexpected (α := α)) Rule.refuseUnexpected :=
  fun _ _ => .look fun _ _ => .refuse _

theorem expect {kind : TokenKind} (hkind : kind ≠ .endOfInput) :
    Strides room spends (expect kind) (Rule.expect kind) := by
  refine fun _ _ => .look fun token _ => .ite (fun hsame => ?_) fun _ => .refuse _
  exact .bind (.shift_of_kind hsame hkind) fun _ => .pure _

theorem expectWord {kind : TokenKind} (hkind : kind ≠ .endOfInput) (word : String) :
    Strides room spends (expectWord kind word) (Rule.expectWord kind word) := by
  refine fun _ _ => .look fun token _ => .ite (fun hspells => ?_) fun _ => .refuse _
  exact .bind (.shift_of_kind (Token.spells_iff.mp hspells).1 hkind) fun _ => .pure _

theorem passWord (kind : TokenKind) (word : String) :
    Paced room spends false ahead (passWord kind word) (Rule.passWord kind word) :=
  .look fun _ _ => .ite (fun _ => .bind (.shift nofun) fun _ => .pure _) fun _ => .pure _

theorem arguments (h : Deeper room true inner inner') :
    Strides room true (arguments inner) (Rule.arguments inner') := by
  refine fun _ _ => .bracketed fun below hbelow => .bind (expectWord TokenKind.noConfusion _ _ _) fun _ => ?_
  have hclose (answers : List Expr) : Paced below true false none
      (do let _ ← Rule.expectWord .punctuation ")"; Pure.pure answers)
      (do let _ ← Rule.expectWord .punctuation ")"; Pure.pure answers) :=
    .bind (expectWord TokenKind.noConfusion _ _ _) fun _ => .pure _
  refine .look fun token _ => .ite (fun _ => .bind (.pure _) hclose) fun _ => ?_
  refine .bind (h below hbelow _ _) fun first => .bind (.repeatWhile (fun token => ?_) ?_) fun others =>
    .bind (.pure _) hclose
  · split <;> rfl
  · intro token rule hrule rule' hrule'
    split at hrule
    next hspells =>
      rw [if_pos hspells] at hrule'
      cases hrule
      cases hrule'
      refine .bind (.shift_of_kind (Token.spells_iff.mp hspells).1 TokenKind.noConfusion) fun _ => ?_
      exact h below hbelow _ _
    next => cases hrule

theorem members : Paced room true false ahead members Rule.members := by
  refine .repeatWhile (fun _ => rfl) fun token rule hrule rule' hrule' => ?_
  obtain rfl := Option.some.inj (hrule.symm.trans hrule')
  split at hrule
  next hspells =>
    cases hrule
    refine .charge (.inr hspells) (.bind (.shift_of_kind (Token.spells_iff.mp hspells).1 TokenKind.noConfusion) ?_)
    exact fun _ => .look fun _ _ => .ite (fun _ => .bind (.shift nofun) fun _ => .pure _) fun _ => .refuse _
  next => cases hrule

theorem withMembers (container : Expr) :
    Paced room true false ahead (withMembers container) (Rule.withMembers container) :=
  .ite (fun _ => .bind members fun _ => .pure _) fun _ => .pure _

theorem group (hadvances : Advances moves ahead) (h : Deeper room true inner inner') :
    Paced room true moves ahead (group inner) (Rule.group inner') := by
  refine .bracketed fun below hbelow => .look fun first hfirst => .bind (.shift_of_known hadvances hfirst) fun _ => ?_
  exact .bind (h below hbelow _ _) fun _ => .bind (expectWord TokenKind.noConfusion _ _ _) fun _ => .pure _

theorem number (hadvances : Advances moves ahead) : Paced room true moves ahead number Rule.number := by
  refine .look fun first hfirst => .bind (.shift_of_known hadvances hfirst) fun _ => ?_
  split
  · exact .pure _
  · exact .throw _

theorem answerMode : Strides room true answerMode Rule.answerMode := by
  refine fun _ _ => .look fun token _ => ?_
  split
  · refine .ite (fun hkind => ?_) fun _ => refuseUnexpected _ _
    exact .bind (.shift_of_kind hkind TokenKind.noConfusion) fun _ => .pure _
  · exact refuseUnexpected _ _

theorem answered (h : Deeper room true inner inner') : Strides room true (answered inner) (Rule.answered inner') := by
  refine fun _ _ => .bind (expectWord TokenKind.noConfusion _ _ _) fun _ => ?_
  refine .bind (expectWord TokenKind.noConfusion _ _ _) fun _ => .bind (expect TokenKind.noConfusion _ _) fun _ => ?_
  exact .bind (answerMode _ _) fun _ => .bind (arguments h _ _) fun _ => .bind (.spanSince _) fun _ => .pure _

theorem operand (h : Deeper room true inner inner') : Strides room true (operand inner) (Rule.operand inner') := by
  refine fun _ _ => .look fun token _ => ?_
  split
  next hkind =>
    refine .ite (fun _ => .bind (group ?_ h) fun _ => withMembers _) fun _ => refuseUnexpected _ _
    exact advances_of_kind hkind TokenKind.noConfusion
  next hkind => exact .bind (.shift_of_kind hkind TokenKind.noConfusion) fun _ => withMembers _
  next hkind => exact number (advances_of_kind hkind TokenKind.noConfusion)
  next hkind => exact .bind (.shift_of_kind hkind TokenKind.noConfusion) fun _ => .pure _
  next hkind => exact .bind (.shift_of_kind hkind TokenKind.noConfusion) fun _ => .pure _
  next => exact .ite (fun _ => answered h _ _) fun _ => refuseUnexpected _ _
  next => exact refuseUnexpected _ _

theorem links (h : Deeper room true inner inner') :
    Paced room true false ahead (links inner) (Rule.links inner') := by
  refine .repeatWhile (fun token => ?_) fun token rule hrule rule' hrule' => ?_
  · split
    · rw [Option.isSome_map, Option.isSome_map]
    · rfl
  · split at hrule
    next hkind =>
      rw [if_pos hkind] at hrule'
      obtain ⟨op, hop, rfl⟩ := Option.map_eq_some_iff.mp hrule
      obtain ⟨op', hop', rfl⟩ := Option.map_eq_some_iff.mp hrule'
      obtain rfl := Option.some.inj (hop.symm.trans hop')
      refine .charge (.inl ?_) (.bind (.shift_of_kind hkind TokenKind.noConfusion) fun _ => ?_)
      · rw [Token.binaryOp?, if_pos hkind, hop]
        rfl
      · exact .bind (operand h _ _) fun _ => .pure _
    next => cases hrule

theorem operation (h : Deeper room true inner inner') :
    Strides room true (operation inner) (Rule.operation inner') :=
  fun _ _ => .bind (operand h _ _) fun _ => .bind (links h) fun _ => .pure _

theorem assignment (h : Deeper room true inner inner') :
    Strides room true (assignment inner) (Rule.assignment inner') := by
  refine fun _ _ => .bind (operation h _ _) fun left => .look fun token _ => .ite (fun _ => ?_) fun _ => .pure _
  split
  · exact .bind (.shift nofun) fun _ => .bind (operation h _ _) fun _ => .pure _
  · exact .refuse _

theorem expression (h : SameLevels room level level') :
    Strides room true (expression level) (Rule.expression level') := by
  induction level generalizing room level' with
  | zero =>
      rcases h with rfl | ⟨hlevel, -⟩
      · exact fun _ _ => .refuse _
      · exact absurd hlevel (Nat.not_lt_zero room)
  | succ level ih =>
      cases level' with
      | zero =>
          rcases h with hlevel | ⟨-, hlevel⟩
          · cases hlevel
          · exact absurd hlevel (Nat.not_lt_zero room)
      | succ level' =>
          refine assignment fun below hbelow => ih ?_
          rcases h with hlevel | ⟨hlevel, hlevel'⟩
          · exact .inl (Nat.succ.inj hlevel)
          · exact .inr ⟨by omega, by omega⟩

theorem simpleStatement (h : Strides room true inner inner') :
    Strides room spends (simpleStatement inner) (Rule.simpleStatement inner') :=
  fun _ _ => .look fun _ _ => .bind (.budgeted (h _ _)) fun _ => .bind (.spanSince _) fun _ => .pure _

theorem embedded (h : Deeper room true inner inner') :
    Strides room spends (embedded inner) (Rule.embedded inner') := by
  refine fun _ _ => .bracketed fun below hbelow => .bind (expect TokenKind.noConfusion _ _) fun _ => ?_
  refine .bind (.budgeted (h below hbelow _ _)) fun _ => .bind (expect TokenKind.noConfusion _ _) fun _ => ?_
  exact .bind (.spanSince _) fun _ => .pure _

/-- Rounds up to a token that closes them. -/
theorem unlessClosed {closes : Token → Prop} [DecidablePred closes] (h : Strides room spends rule rule') :
    Paced room spends false ahead (Rule.repeatWhile fun token => if closes token then none else some rule)
      (Rule.repeatWhile fun token => if closes token then none else some rule') := by
  refine .repeatWhile (fun token => ?_) fun token offered hoffered offered' hoffered' => ?_
  · split <;> rfl
  · split at hoffered
    next => cases hoffered
    next hopen =>
      rw [if_neg hopen] at hoffered'
      cases hoffered
      cases hoffered'
      exact h _ _

/-- Rounds up to a token that closes them, before which the input may not end. -/
theorem untilClosed {closes : Token → Prop} [DecidablePred closes] {what : Token → Fault}
    (h : Strides room spends rule rule') :
    Paced room spends false ahead
      (Rule.repeatWhile fun token => if closes token then none
        else if token.kind = .endOfInput then some (Rule.refuse (what token)) else some rule)
      (Rule.repeatWhile fun token => if closes token then none
        else if token.kind = .endOfInput then some (Rule.refuse (what token)) else some rule') := by
  refine .repeatWhile (fun token => ?_) fun token offered hoffered offered' hoffered' => ?_
  · split
    · rfl
    · split <;> rfl
  · split at hoffered
    next => cases hoffered
    next hopen =>
      rw [if_neg hopen] at hoffered'
      split at hoffered
      next hend =>
        rw [if_pos hend] at hoffered'
        cases hoffered
        cases hoffered'
        exact .refuse _
      next hend =>
        rw [if_neg hend] at hoffered'
        cases hoffered
        cases hoffered'
        exact h _ _

theorem block (h : Deeper room spends body body') : Strides room spends (block body) (Rule.block body') := by
  refine fun _ _ => .bracketed fun below hbelow => .bind (expectWord TokenKind.noConfusion _ _ _) fun _ => ?_
  refine .bind (untilClosed (h below hbelow)) fun _ => .bind (expectWord TokenKind.noConfusion _ _ _) fun _ => ?_
  exact .bind (.spanSince _) fun _ => .pure _

theorem condition (h : Strides room true inner inner') :
    Strides room spends (condition inner) (Rule.condition inner') :=
  fun _ _ => .bind (expectWord TokenKind.noConfusion _ _ _) fun _ => simpleStatement h _ _

theorem conditions (h : Strides room true inner inner') (kind : TokenKind) (word : String) :
    Strides room spends (conditions inner kind word) (Rule.conditions inner' kind word) :=
  fun _ _ => .bind (condition h _ _) fun _ => .bind (unlessClosed (condition h)) fun _ => .pure _

theorem ruleDefinition (h : Strides room true inner inner') (hbody : Deeper room spends body body') :
    Strides room spends (ruleDefinition inner body) (Rule.ruleDefinition inner' body') := by
  refine fun _ _ => .bind (expectWord TokenKind.noConfusion _ _ _) fun _ => ?_
  refine .bind (expect TokenKind.noConfusion _ _) fun _ => .bind (expectWord TokenKind.noConfusion _ _ _) fun _ => ?_
  exact .bind (conditions h _ _ _ _) fun _ => .bind (block hbody _ _) fun _ => .bind (.spanSince _) fun _ => .pure _

theorem actionDefinition (hbody : Deeper room spends body body') :
    Strides room spends (actionDefinition body) (Rule.actionDefinition body') := by
  refine fun _ _ => .bind (expectWord TokenKind.noConfusion _ _ _) fun _ => ?_
  refine .bind (expect TokenKind.noConfusion _ _) fun _ => .bind (block hbody _ _) fun _ => ?_
  exact .bind (.spanSince _) fun _ => .pure _

theorem conditionSet (h : Strides room true inner inner') :
    Strides room spends (conditionSet inner) (Rule.conditionSet inner') := by
  refine fun _ _ => .bind (expectWord TokenKind.noConfusion _ _ _) fun _ => ?_
  refine .bind (expect TokenKind.noConfusion _ _) fun _ => .bind (expectWord TokenKind.noConfusion _ _ _) fun _ => ?_
  refine .bind (conditions h _ _ _ _) fun _ => .bind (expectWord TokenKind.noConfusion _ _ _) fun _ => ?_
  exact .bind (.spanSince _) fun _ => .pure _

theorem declaration (h : Strides room true inner inner') :
    Strides room spends (declaration inner) (Rule.declaration inner') := by
  refine fun _ _ => .bind (expectWord TokenKind.noConfusion _ _ _) fun _ => ?_
  refine .bind (expect TokenKind.noConfusion _ _) fun _ => .bind (passWord _ _) fun passed => ?_
  refine .ite (fun _ => .bind (map (.budgeted (h _ _)) _) fun _ => ?_) fun _ => .bind (.pure _) fun _ => ?_
  · exact .bind (.spanSince _) fun _ => .pure _
  · exact .bind (.spanSince _) fun _ => .pure _

theorem invocation (hadvances : Advances moves ahead) (form : Token → Span → Statement) :
    Paced room spends moves ahead (invocation form) (Rule.invocation form) := by
  refine .look fun first hfirst => .bind (.shift_of_known hadvances hfirst) fun _ => ?_
  exact .bind (expect TokenKind.noConfusion _ _) fun _ => .bind (.spanSince _) fun _ => .pure _

theorem command {list list' : Rule (List Expr)} (h : Strides room true list list') :
    Strides room spends (command list) (Rule.command list') := by
  refine fun _ _ => .bind (expect TokenKind.noConfusion _ _) fun _ => .bind (.budgeted (h _ _)) fun _ => ?_
  exact .bind (.spanSince _) fun _ => .pure _

theorem bareStatement (h : Deeper room true inner inner') (hbody : Deeper room spends body body') :
    Strides room spends (bareStatement inner body) (Rule.bareStatement inner' body') := by
  have hsimple : Strides room spends (Statement.simple <$> Rule.simpleStatement (Rule.assignment inner))
      (Statement.simple <$> Rule.simpleStatement (Rule.assignment inner')) :=
    fun _ _ => map (simpleStatement (assignment h) _ _) _
  have hrefuse : Strides room spends (Rule.refuseUnexpected (α := Statement)) Rule.refuseUnexpected := refuseUnexpected
  refine fun _ _ => .look fun token _ => ?_
  dsimp only
  split
  · exact hsimple _ _
  · exact hsimple _ _
  · exact hsimple _ _
  · exact hsimple _ _
  · exact .ite (fun _ => hsimple _ _) fun _ => hrefuse _ _
  next hkind =>
    have hcall {moves : Bool} : Advances moves (some token) := advances_of_kind hkind TokenKind.noConfusion
    refine .ite (fun _ => invocation hcall _) fun _ => .ite (fun _ => invocation hcall _) fun _ => ?_
    exact .ite (fun _ => hrefuse _ _) fun _ => command (arguments h) _ _
  next =>
    refine .ite (fun _ => ruleDefinition (assignment h) hbody _ _) fun _ => ?_
    refine .ite (fun _ => actionDefinition hbody _ _) fun _ => ?_
    refine .ite (fun _ => conditionSet (assignment h) _ _) fun _ => ?_
    refine .ite (fun _ => declaration (operation h) _ _) fun _ => ?_
    exact .ite (fun _ => hsimple _ _) fun _ => hrefuse _ _
  next => exact hrefuse _ _

theorem statement (h : SameLevels room level level') :
    Strides room spends (statement level) (Rule.statement level') := by
  induction level generalizing room level' with
  | zero =>
      rcases h with rfl | ⟨hlevel, -⟩
      · exact fun _ _ => .refuse _
      · exact absurd hlevel (Nat.not_lt_zero room)
  | succ level ih =>
      cases level' with
      | zero =>
          rcases h with hlevel | ⟨-, hlevel⟩
          · cases hlevel
          · exact absurd hlevel (Nat.not_lt_zero room)
      | succ level' =>
          have hbelow (below : Nat) (hroom : room = below + 1) : SameLevels below level level' := by
            rcases h with hlevel | ⟨hlevel, hlevel'⟩
            · exact .inl (Nat.succ.inj hlevel)
            · exact .inr ⟨by omega, by omega⟩
          have hbare : Strides room spends (Rule.bareStatement (Rule.expression level) (Rule.statement level))
              (Rule.bareStatement (Rule.expression level') (Rule.statement level')) :=
            bareStatement (fun below hroom => expression (hbelow below hroom))
              fun below hroom => ih (hbelow below hroom)
          exact fun _ _ => .bind (hbare _ _) fun _ => .bind (passWord _ _) fun _ => .pure _

theorem attributeValue (h : Strides room spends embedding embedding') :
    Strides room spends (attributeValue embedding) (Rule.attributeValue embedding') := by
  refine fun _ _ => .look fun token _ => ?_
  split
  next hkind => exact .bind (.shift_of_kind hkind TokenKind.noConfusion) fun _ => .pure _
  next => exact map (h _ _) _
  next => exact .refuse _

theorem oneAttribute (h : Strides room spends embedding embedding') :
    Strides room spends (oneAttribute embedding) (Rule.oneAttribute embedding') := by
  refine fun _ _ => .look fun name _ => ?_
  split
  next hkind => exact .bind (.shift_of_kind hkind TokenKind.noConfusion) fun _ => .pure _
  next hkind =>
    refine .bind (.shift_of_kind hkind TokenKind.noConfusion) fun _ => .bind (passWord _ _) fun passed => ?_
    refine .ite (fun _ => .bind (map (attributeValue h _ _) _) fun _ => ?_) fun _ => .bind (.pure _) fun _ => ?_
    · exact .bind (.spanSince _) fun _ => .pure _
    · exact .bind (.spanSince _) fun _ => .pure _
  next => exact .refuse _

theorem attributes {opening closing : TokenKind} (h : Strides room spends embedding embedding')
    (hopening : opening ≠ .endOfInput) (hclosing : closing ≠ .endOfInput) :
    Strides room spends (attributes embedding opening closing) (Rule.attributes embedding' opening closing) := by
  refine fun _ _ => .bind (expect hopening _ _) fun _ => .bind (untilClosed (oneAttribute h)) fun _ => ?_
  exact .bind (expect hclosing _ _) fun _ => .pure _

theorem texts (h : Strides room spends embedding embedding') :
    Paced room spends false ahead (texts embedding) (Rule.texts embedding') := by
  refine .repeatWhile (fun token => ?_) fun token rule hrule rule' hrule' => ?_
  · split <;> rfl
  · split at hrule
    next hkind =>
      simp only [hkind] at hrule'
      cases hrule
      cases hrule'
      exact .bind (.shift_of_kind hkind TokenKind.noConfusion) fun _ => .pure _
    next hkind =>
      simp only [hkind] at hrule'
      cases hrule
      cases hrule'
      exact map (h _ _) _
    next => cases hrule

theorem answerOption (h : Strides room spends embedding embedding') :
    Strides room spends (answerOption embedding) (Rule.answerOption embedding') := by
  refine fun _ _ => .look fun _ _ => .bind (attributes h TokenKind.noConfusion TokenKind.noConfusion _ _) fun _ => ?_
  exact .bind (texts h) fun _ => .bind (.spanSince _) fun _ => .pure _

theorem question (h : Strides room spends embedding embedding') :
    Strides room spends (question embedding) (Rule.question embedding') := by
  refine fun _ _ => .look fun _ _ => .bind (attributes h TokenKind.noConfusion TokenKind.noConfusion _ _) fun _ => ?_
  refine .look fun _ _ => .ite (fun _ => ?_) fun _ => ?_
  · exact .bind (.spanSince _) fun _ => .pure _
  · refine .bind (texts h) fun _ => .bind (unlessClosed (answerOption h)) fun _ => ?_
    exact .bind (.spanSince _) fun _ => .pure _

theorem interlude (h : Strides room spends body body') :
    Strides room spends (interlude body) (Rule.interlude body') := by
  refine fun _ _ => .bind (expect TokenKind.noConfusion _ _) fun _ => .bind (untilClosed h) fun _ => ?_
  exact .bind (expect TokenKind.noConfusion _ _) fun _ => .bind (.spanSince _) fun _ => .pure _

/-- A component of a document opens its brackets outside of all others, which is one level more than an expression in
it needs. -/
theorem component (h : SameLevels room (level + 1) (level' + 1)) :
    Strides room spends (component level) (Rule.component level') := by
  have hbelow (below : Nat) (hroom : room = below + 1) : SameLevels below level level' := by
    rcases h with hlevel | ⟨hlevel, hlevel'⟩
    · exact .inl (Nat.succ.inj hlevel)
    · exact .inr ⟨by omega, by omega⟩
  refine fun _ _ => .look fun token _ => ?_
  split
  · exact question (embedded fun below hroom => expression (hbelow below hroom)) _ _
  · exact interlude (statement h) _ _
  · exact refuseUnexpected _ _

theorem document (h : SameLevels room (level + 1) (level' + 1)) :
    Paced room spends false ahead (document level) (Rule.document level') :=
  .bind .start fun _ => .bind (unlessClosed (component h)) fun _ => .pure _

end Paced

/-- What comes after a reading that has ended: the rest where it has answered, and nothing where it has stopped. -/
def ensuing (result : Result α) (next : α → Parser → Result β) : Result β :=
  match result with
  | .ok value after => next value after
  | .error diagnostic after => .error diagnostic after

theorem bind_apply (rule : Rule α) (next : α → Rule β) (p : Parser) : (rule >>= next) p = ensuing (rule p) next := by
  change EStateM.bind rule next p = _
  unfold EStateM.bind
  cases rule p <;> rfl

theorem ensuing_exiting {exit : Parser → Parser} {result : Result α} {next next' : α → Parser → Result β}
    (hnext : ∀ value q, result = .ok value q → next' value (exit q) = exiting exit (next value q)) :
    ensuing (exiting exit result) next' = exiting exit (ensuing result next) := by
  cases result with
  | ok value q => exact hnext value q rfl
  | error diagnostic q => rfl

/-- The rule has a run to the given end, which charges nothing but links, and those only where it may. One that moves
has pulled an item when it answers. -/
def Concludes (spends moves : Bool) (rule : Rule α) (p : Parser) (result : Result α) : Prop :=
  ∃ pulled charged, Runs rule p pulled charged result ∧ (∀ token ∈ charged, token.IsLink) ∧
    (spends = false → charged = []) ∧ (moves = true → ∀ value q, result = .ok value q → pulled ≠ [])

section

variable {spends moves : Bool} {rule : Rule α} {p : Parser} {result : Result α}

theorem concludes_of_runs {pulled : List Item} (h : Runs rule p pulled [] result)
    (hmoves : moves = true → ∀ value q, result = .ok value q → pulled ≠ []) : Concludes spends moves rule p result :=
  ⟨pulled, [], h, nofun, fun _ => rfl, hmoves⟩

/-- What stops need not have moved. -/
theorem concludes_of_error {pulled : List Item} {diagnostic : Diagnostic} {q : Parser}
    (h : Runs rule p pulled [] (.error diagnostic q)) : Concludes spends moves rule p (.error diagnostic q) :=
  concludes_of_runs h fun _ _ _ hok => nomatch hok

theorem Concludes.bind {next : α → Rule β} {next' : α → Parser → Result β} (h : Concludes spends moves rule p result)
    (hnext : ∀ value q, result = .ok value q → Concludes spends false (next value) q (next' value q)) :
    Concludes spends moves (rule >>= next) p (ensuing result next') := by
  obtain ⟨pulled, charged, hruns, hlinks, hspends, hmoves⟩ := h
  cases result with
  | error diagnostic q => exact ⟨pulled, charged, .stop hruns, hlinks, hspends, fun _ _ _ hok => nomatch hok⟩
  | ok value q =>
      obtain ⟨pulled', charged', hruns', hlinks', hspends', -⟩ := hnext value q rfl
      refine ⟨pulled ++ pulled', charged ++ charged', .bind hruns hruns', List.forall_mem_append.mpr ⟨hlinks, hlinks'⟩,
        fun hnone => ?_, fun hmove _ _ _ hnil => ?_⟩
      · rw [hspends hnone, hspends' hnone, List.append_nil]
      · exact hmoves hmove value q rfl (List.append_eq_nil_iff.mp hnil).1

/-- A rule that has moved leaves fewer items. -/
theorem Concludes.length_lt {value : α} {q : Parser} (h : Concludes spends true rule p (.ok value q)) :
    q.items.length < p.items.length := by
  obtain ⟨pulled, charged, hruns, -, -, hmoves⟩ := h
  have hpulled := List.length_pos_iff.mpr (hmoves rfl value q rfl)
  rw [hruns.keeps.items, List.length_append]
  exact Nat.lt_add_of_pos_left hpulled

theorem Concludes.proper {value : α} {q : Parser} (h : Concludes spends moves rule p (.ok value q))
    (hproper : p.Proper) : q.Proper := by
  obtain ⟨pulled, charged, hruns, -⟩ := h
  exact hruns.proper hproper

theorem Concludes.exiting {exit : Parser → Parser} (h : Concludes spends moves rule p result) (hunseen : Unseen exit)
    (hproper : p.Proper) : Concludes spends moves rule (exit p) (exiting exit result) := by
  obtain ⟨pulled, charged, hruns, hlinks, hspends, hmoves⟩ := h
  refine ⟨pulled, charged, hunseen.runs hruns hproper, hlinks, hspends, fun hmove value q hq => ?_⟩
  obtain ⟨r, hr⟩ := exiting_eq_ok hq
  exact hmoves hmove value r hr

theorem Concludes.opensAtMost {room : Nat} {value : α} {q : Parser} (h : Concludes spends moves rule p (.ok value q))
    (hroom : p.OpensAtMost room) : q.OpensAtMost room := by
  obtain ⟨pulled, charged, hruns, -, -, -⟩ := h
  have hkeeps := hruns.keeps
  unfold Parser.OpensAtMost
  rw [show q.limits = p.limits from hkeeps.limits, show q.depth = p.depth from hkeeps.depth]
  exact hroom

theorem concludes_shift (hmoves : moves = true → p.current.kind ≠ .endOfInput) :
    Concludes spends moves shift p (shift p) := by
  refine concludes_of_runs (.shift p) fun hmove value q hshift => ?_
  rw [if_neg (hmoves hmove)]
  unfold shift fetch at hshift
  rw [if_neg (hmoves hmove)] at hshift
  intro hnil
  cases hitems : p.items with
  | nil =>
      rw [hitems] at hshift
      cases hshift
  | cons item items =>
      rw [hitems] at hnil
      cases hnil

/-- Where every round moves, the bound on the number of rounds is never what ends a loop. -/
theorem concludes_rounds {room : Nat} {offer : Token → Option (Rule α)}
    (hoffer : ∀ p rule, p.OpensAtMost room → offer p.current = some rule → Concludes spends true rule p (rule p))
    (fuel : List Item) (p : Parser) (hroom : p.OpensAtMost room) (hfuel : p.items.length ≤ fuel.length) :
    Concludes spends false (repeatWhile offer) p (rounds offer fuel p) := by
  cases hround : offer p.current with
  | none =>
      rw [rounds_of_none _ hround]
      exact concludes_of_runs (.done hround) nofun
  | some rule =>
      have hrule := hoffer p rule hroom hround
      have hrest (value : α) (q : Parser) (hresult : rule p = .ok value q) :
          Concludes spends false (repeatWhile offer >>= fun values => pure (value :: values)) q
            (roundsAfter offer fuel value q) := by
        rw [hresult] at hrule
        have hlength := hrule.length_lt
        cases fuel with
        | nil =>
            rw [List.length_nil] at hfuel
            omega
        | cons item fuel =>
            rw [List.length_cons] at hfuel
            have hloop := concludes_rounds hoffer fuel q (hrule.opensAtMost hroom) (by omega)
            change Concludes spends false _ q ((rounds offer fuel >>= fun values => pure (value :: values)) q)
            rw [bind_apply]
            exact hloop.bind fun values r _ => concludes_of_runs (.pure _ r) nofun
      rw [rounds_of_some _ hround, bind_apply]
      obtain ⟨pulled, charged, hruns, hlinks, hspends, -⟩ := hrule.bind hrest
      exact ⟨pulled, charged, .round hround hruns, hlinks, hspends, nofun⟩

end

namespace Paced

variable {room : Nat} {spends moves : Bool} {ahead : Option Token} {rule rule' : Rule α} {p : Parser}
  {exit : Parser → Parser}

theorem opensAtMost_deeper {below : Nat} (hroom : p.OpensAtMost room) (hdepth : ¬p.limits.maxNesting ≤ p.depth)
    (hbelow : room - 1 = below) :
    room = below + 1 ∧ Parser.OpensAtMost below { p with depth := p.depth + 1 } := by
  unfold Parser.OpensAtMost at hroom ⊢
  dsimp only
  omega

theorem exists_offered {offer offer' : Token → Option (Rule α)} {token : Token}
    (hsame : (offer' token).isSome = (offer token).isSome) (h : offer token = some rule) :
    ∃ rule', offer' token = some rule' := by
  refine Option.isSome_iff_exists.mp ?_
  rw [hsame, h]
  rfl

/-- A rule of the grammar comes to an end by itself. -/
theorem concludes (h : Paced room spends moves ahead rule rule') (hroom : p.OpensAtMost room)
    (hahead : ∀ known ∈ ahead, p.current = known) : Concludes spends moves rule p (rule p) := by
  induction h generalizing p with
  | pure value => exact concludes_of_runs (.pure value p) nofun
  | bind _ _ ih ihNext =>
      have hrule := ih hroom hahead
      rw [bind_apply]
      refine hrule.bind fun value q hresult => ihNext value ?_ nofun
      rw [hresult] at hrule
      exact hrule.opensAtMost hroom
  | look _ ih =>
      obtain ⟨pulled, charged, hruns, hrest⟩ := ih p.current hahead hroom fun _ hknown => Option.some.inj hknown
      exact ⟨pulled, charged, .bind (.current p) hruns, hrest⟩
  | start => exact concludes_of_runs (.start p) nofun
  | shift hmoves =>
      refine concludes_shift fun hmove => ?_
      obtain ⟨token, htoken, hkind⟩ := hmoves hmove
      rwa [hahead token htoken]
  | @charge _ _ _ token next next' hlink _ ih =>
      rw [charge_bind]
      by_cases hspent : p.limits.maxExpressionDepth ≤ p.links
      · rw [if_pos hspent]
        exact concludes_of_error (.stop (runs_charge_of_le hspent))
      · rw [if_neg hspent]
        obtain ⟨pulled, charged, hruns, hlinks, -, hmoves⟩ := @ih { p with links := p.links + 1 } hroom hahead
        refine ⟨pulled, p.current :: charged, .bind (runs_charge hspent) hruns, ?_, nofun, hmoves⟩
        rw [hahead token rfl]
        exact List.forall_mem_cons.mpr ⟨hlink, hlinks⟩
  | spanSince first => exact concludes_of_runs (.spanSince first p) nofun
  | throw diagnostic => exact concludes_of_error (.throw diagnostic p)
  | refuse fault => exact concludes_of_error (.refuse fault p)
  | bracketed _ ih =>
      unfold Rule.bracketed
      split
      next hfull => exact concludes_of_error (.tooDeep hfull)
      next hdepth =>
        obtain ⟨hbelow, hroom'⟩ := opensAtMost_deeper hroom hdepth rfl
        obtain ⟨pulled, charged, hruns, hlinks, hspends, hmoves⟩ := ih _ hbelow hroom' hahead
        rw [leaving_apply]
        refine ⟨pulled, charged, .bracketed (Nat.lt_of_not_le hdepth) hruns, hlinks, hspends, ?_⟩
        intro hmove value q hq
        obtain ⟨r, hr⟩ := exiting_eq_ok hq
        exact hmoves hmove value r hr
  | budgeted _ ih =>
      obtain ⟨pulled, charged, hruns, -, -, hmoves⟩ := @ih { p with links := 0 } hroom hahead
      unfold Rule.budgeted
      rw [leaving_apply]
      refine concludes_of_runs (.budgeted hruns) fun hmove value q hq => ?_
      obtain ⟨r, hr⟩ := exiting_eq_ok hq
      exact hmoves hmove value r hr
  | @repeatWhile _ _ _ _ offer offer' hsame _ ih =>
      refine concludes_rounds (fun q rule hq hrule => ?_) p.items p hroom (Nat.le_refl _)
      obtain ⟨rule', hrule'⟩ := exists_offered (hsame _) hrule
      exact ih q.current rule hrule rule' hrule' hq fun _ => Option.some.inj

/-- A loop goes on in step with another one whose rounds do, whatever bounds the number of their rounds. -/
theorem follows_rounds {offer offer' : Token → Option (Rule α)} (hunseen : Unseen exit)
    (hsame : ∀ token, (offer' token).isSome = (offer token).isSome)
    (hconcludes : ∀ p rule, p.OpensAtMost room → offer p.current = some rule → Concludes spends true rule p (rule p))
    (hfollows : ∀ p rule rule', p.OpensAtMost room → p.Proper → offer p.current = some rule →
      offer' p.current = some rule' → rule' (exit p) = exiting exit (rule p))
    (fuel fuel' : List Item) (p : Parser) (hroom : p.OpensAtMost room) (hproper : p.Proper)
    (hfuel : p.items.length ≤ fuel.length) (hfuel' : (exit p).items.length ≤ fuel'.length) :
    rounds offer' fuel' (exit p) = exiting exit (rounds offer fuel p) := by
  cases hround : offer p.current with
  | none =>
      have hnone : offer' (exit p).current = none := by
        rw [hunseen.current, ← Option.isNone_iff_eq_none, ← Option.not_isSome, hsame, hround]
        rfl
      rw [rounds_of_none _ hround, rounds_of_none _ hnone]
      rfl
  | some rule =>
      obtain ⟨rule', hround'⟩ := exists_offered (hsame _) hround
      have hrule := hconcludes p rule hroom hround
      have hfollow := hfollows p rule rule' hroom hproper hround hround'
      rw [← hunseen.current] at hround'
      rw [rounds_of_some _ hround, rounds_of_some _ hround', bind_apply, bind_apply, hfollow]
      refine ensuing_exiting fun value q hresult => ?_
      -- both loops have pulled the items of the round
      rw [hresult] at hrule
      have hlength := hrule.length_lt
      have hlength' := (hrule.exiting hunseen hproper).length_lt
      match fuel, fuel' with
      | [], _ =>
          rw [List.length_nil] at hfuel
          omega
      | _ :: _, [] =>
          rw [List.length_nil] at hfuel'
          omega
      | _ :: fuel, _ :: fuel' =>
          rw [List.length_cons] at hfuel hfuel'
          have hloop := follows_rounds hunseen hsame hconcludes hfollows fuel fuel' q (hrule.opensAtMost hroom)
            (hrule.proper hproper) (by omega) (by omega)
          change (rounds offer' fuel' >>= fun values => Pure.pure (value :: values)) (exit q) =
            exiting exit ((rounds offer fuel >>= fun values => Pure.pure (value :: values)) q)
          rw [bind_apply, bind_apply, hloop]
          exact ensuing_exiting fun values r _ => rfl

/-- The other version of the rule does the same from a parser with a change that no reading sees. -/
theorem follows (h : Paced room spends moves ahead rule rule') (hunseen : Unseen exit) (hroom : p.OpensAtMost room)
    (hproper : p.Proper) (hahead : ∀ known ∈ ahead, p.current = known) : rule' (exit p) = exiting exit (rule p) := by
  induction h generalizing p with
  | pure value => rfl
  | bind hrule _ ih ihNext =>
      rw [bind_apply, bind_apply, ih hroom hproper hahead]
      refine ensuing_exiting fun value q hresult => ?_
      have hconcludes := hrule.concludes hroom hahead
      rw [hresult] at hconcludes
      exact ihNext value (hconcludes.opensAtMost hroom) (hconcludes.proper hproper) nofun
  | look _ ih =>
      rw [current_bind, current_bind, hunseen.current]
      exact ih p.current hahead hroom hproper fun _ hknown => Option.some.inj hknown
  | start => exact hunseen.start p hproper
  | shift => exact hunseen.shift p hproper
  | charge _ _ ih =>
      rw [bind_apply, bind_apply, hunseen.charge]
      refine ensuing_exiting fun _ q hcharge => ?_
      unfold Rule.charge at hcharge
      split at hcharge
      · cases hcharge
      · cases hcharge
        exact ih hroom hproper hahead
  | spanSince first =>
      unfold Rule.spanSince
      rw [hunseen.previous]
      rfl
  | throw diagnostic => rfl
  | refuse fault =>
      unfold Rule.refuse
      rw [hunseen.current]
      rfl
  | bracketed _ ih =>
      have hlimit : (exit p).limits.maxNesting ≤ (exit p).depth ↔ p.limits.maxNesting ≤ p.depth := by
        rw [hunseen.limits, hunseen.depth]
      unfold Rule.bracketed
      by_cases hfull : p.limits.maxNesting ≤ p.depth
      · rw [if_pos hfull, if_pos (hlimit.mpr hfull)]
        unfold Rule.refuse
        rw [hunseen.current]
        rfl
      · obtain ⟨hbelow, hroom'⟩ := opensAtMost_deeper hroom hfull rfl
        rw [if_neg hfull, if_neg (mt hlimit.mp hfull), leaving_apply, leaving_apply, hunseen.depth, ← hunseen.deepen,
          ih _ hbelow hroom' hproper hahead, hunseen.exiting_depth]
  | budgeted _ ih =>
      have hinside := @ih { p with links := 0 } hroom hproper hahead
      unfold Rule.budgeted
      rw [leaving_apply, leaving_apply, hunseen.links, ← hunseen.spend, hinside, hunseen.exiting_links]
  | @repeatWhile α room spends _ offer offer' hsame hoffer ih =>
      have hconcludes (q : Parser) (rule : Rule α) (hq : q.OpensAtMost room) (hrule : offer q.current = some rule) :
          Concludes spends true rule q (rule q) := by
        obtain ⟨rule', hrule'⟩ := exists_offered (hsame _) hrule
        exact (hoffer q.current rule hrule rule' hrule').concludes hq fun _ => Option.some.inj
      exact follows_rounds hunseen hsame hconcludes
        (fun q rule rule' hq hproper hrule hrule' =>
          ih q.current rule hrule rule' hrule' hq hproper fun _ => Option.some.inj)
        p.items (exit p).items p hroom hproper (Nat.le_refl _) (Nat.le_refl _)

end Paced

end Rule

end Questionnaire
