import Questionnaire.Proofs.Grammar.Expression

/-! The rules for statements read what the grammar derives. A statement is ended by whatever begins another one, so
that statements need nothing between them. A block is taken with one bracket less than the statement that holds it,
and the levels are tied together as those of expressions are. -/

namespace Questionnaire

namespace Token

variable {token : Token} {word : String}

/-- A statement begins with the token. -/
def StartsStatement (token : Token) : Prop :=
  token.StartsExpression ∨ token.kind = .callKeyword ∨ token.kind = .keyword

/-- Neither does an expression go on, nor is there a semicolon. -/
def EndsStatement (token : Token) : Prop := token.EndsExpression ∧ token.spells .punctuation ";" = false

theorem endsStatement_of_kind (hpunctuation : token.kind ≠ .punctuation) (hoperator : token.kind ≠ .operator) :
    token.EndsStatement :=
  ⟨endsExpression_of_kind hpunctuation hoperator, spells_eq_false_of_kind hpunctuation⟩

theorem endsStatement_of_spells (h : token.spells .punctuation word = true) (hdot : word ≠ ".")
    (hsemicolon : word ≠ ";") : token.EndsStatement :=
  ⟨endsExpression_of_spells h hdot, spells_eq_false_of_spells h hsemicolon⟩

namespace StartsStatement

theorem kind_mem (h : token.StartsStatement) : token.kind ∈
    ([.number, .string, .valueKeyword, .identifier, .punctuation, .keyword, .callKeyword] : List TokenKind) := by
  rcases h with (h | h | h | h | h | h) | h | h
  · simp [h]
  · simp [h]
  · simp [h]
  · simp [h]
  · simp [(spells_iff.mp h).1]
  · simp [(spells_iff.mp h).1]
  · simp [h]
  · simp [h]

theorem kind_ne_operator (h : token.StartsStatement) : token.kind ≠ .operator := by
  intro hkind
  simpa [hkind] using h.kind_mem

theorem kind_ne_endOfInput (h : token.StartsStatement) : token.kind ≠ .endOfInput := by
  intro hkind
  simpa [hkind] using h.kind_mem

theorem kind_ne_logicClose (h : token.StartsStatement) : token.kind ≠ .logicClose := by
  intro hkind
  simpa [hkind] using h.kind_mem

theorem spells_eq_false (h : token.StartsStatement) (hword : word ≠ "(") :
    token.spells .punctuation word = false := by
  rcases h with h | h | h
  · exact h.spells_eq_false hword
  · exact spells_eq_false_of_kind (by simp [h])
  · exact spells_eq_false_of_kind (by simp [h])

theorem endsStatement (h : token.StartsStatement) : token.EndsStatement :=
  ⟨⟨h.spells_eq_false (by decide), h.kind_ne_operator⟩, h.spells_eq_false (by decide)⟩

end StartsStatement

end Token

theorem Simple.starts {room budget : Nat} {statement : SimpleStatement} {tokens : List Token}
    (h : Simple room budget statement tokens) : ∃ first ∈ tokens.head?, first.StartsExpression := by
  cases h with
  | mk hexpr => exact hexpr.starts

/-- How the tokens of a clause begin. -/
def Clause.Starts (tokens : List Token) : Clause → Prop
  | .statement _ => ∃ first ∈ tokens.head?, first.StartsStatement
  | .bare _ => ∃ first ∈ tokens.head?, first.StartsStatement
  | .statements _ => ∀ first ∈ tokens.head?, first.StartsStatement
  | .block _ => ∃ first ∈ tokens.head?, first.spells .punctuation "\x7b" = true

namespace Logic

variable {room budget : Nat} {clause : Clause} {tokens : List Token}

theorem starts (h : Logic .operation budget room clause tokens) : clause.Starts tokens := by
  induction h with
  | simple hstatement =>
      obtain ⟨first, hhead, hfirst⟩ := hstatement.starts
      exact ⟨first, hhead, .inl hfirst⟩
  | rule hfirst => exact ⟨_, rfl, .inr (.inr (Token.spells_iff.mp hfirst).1)⟩
  | action hfirst => exact ⟨_, rfl, .inr (.inr (Token.spells_iff.mp hfirst).1)⟩
  | conditionSet hfirst => exact ⟨_, rfl, .inr (.inr (Token.spells_iff.mp hfirst).1)⟩
  | declaration hfirst => exact ⟨_, rfl, .inr (.inr (Token.spells_iff.mp hfirst).1)⟩
  | definition hfirst => exact ⟨_, rfl, .inr (.inr (Token.spells_iff.mp hfirst).1)⟩
  | command hname => exact ⟨_, rfl, .inr (.inl hname)⟩
  | evaluate hfirst => exact ⟨_, rfl, .inr (.inl (Token.spells_iff.mp hfirst).1)⟩
  | perform hfirst => exact ⟨_, rfl, .inr (.inl (Token.spells_iff.mp hfirst).1)⟩
  | unended _ ih => exact ih
  | ended _ _ ih => exact exists_mem_head_append _ ih
  | noStatements => simp [Clause.Starts]
  | statements _ _ ih =>
      obtain ⟨first, hhead, hfirst⟩ := exists_mem_head_append _ ih
      intro other hother
      rw [hhead] at hother
      cases hother
      exact hfirst
  | block hopening => exact ⟨_, rfl, hopening⟩

theorem ne_nil {statement : Statement} (h : Logic .operation budget room (.statement statement) tokens) :
    tokens ≠ [] := by
  rintro rfl
  obtain ⟨first, hhead, -⟩ := h.starts
  cases hhead

theorem statements_of_series {statements : List Statement}
    (h : Series (fun statement => Logic .operation budget room (.statement statement)) statements tokens) :
    Logic .operation budget room (.statements statements) tokens := by
  induction h with
  | nil => exact .noStatements
  | cons hstatement _ ih => exact .statements hstatement ih

end Logic

namespace Rule

open Questionnaire.Parser (Takes)

variable {α : Type} {room budget : Nat} {p q r : Parser} {expr inner : Rule Expr} {kind : TokenKind} {word : String}

theorem sound_simpleStatement
    (hexpr : Sound room budget (fun expr => Derives room (.expression expr)) Expr.charge expr) :
    Sound room budget (Simple room budget) (fun _ => 0) (simpleStatement expr) := by
  intro p statement r hroom h
  rw [simpleStatement, current_bind] at h
  obtain ⟨value, p₁, hvalue, h⟩ := bind_eq_ok.mp h
  rw [spanSince_bind] at h
  obtain ⟨rfl, rfl⟩ := pure_eq_ok.mp h
  obtain ⟨p', q', hroom', hrule, htakes⟩ := takes_of_budgeted hvalue hroom
  obtain ⟨tokens, htokens, hderives⟩ := hexpr _ _ _ hroom' hrule
  obtain ⟨htaken, hcharge⟩ := htakes _ _ htokens
  cases tokens with
  | nil =>
      obtain ⟨first, hhead, -⟩ := hderives.starts
      cases hhead
  | cons first more =>
      rw [htaken.current_eq, htaken.span_eq]
      exact ⟨_, htaken, .mk hderives hcharge⟩

theorem sound_condition
    (hexpr : Sound room budget (fun expr => Derives room (.expression expr)) Expr.charge expr) :
    Sound room budget (Condition room budget) (fun _ => 0) (condition expr) := by
  intro p statement r hroom h
  obtain ⟨bar, p₁, hbar, hfirst, h⟩ := (expectWord_bind_eq_ok (by decide)).mp h
  obtain ⟨tokens, htokens, hsimple⟩ := sound_simpleStatement hexpr _ _ _ (hfirst.hasRoom hroom) h
  exact ⟨_, hfirst.cons htokens, .mk hbar hsimple⟩

/-- The conditions after the first, one round each. -/
def conditionOffer (expr : Rule Expr) (kind : TokenKind) (word : String) (token : Token) :
    Option (Rule SimpleStatement) :=
  if token.spells kind word then none else some (condition expr)

theorem soundRounds_condition (kind : TokenKind) (word : String)
    (hexpr : Sound room budget (fun expr => Derives room (.expression expr)) Expr.charge expr) :
    SoundRounds room budget (Condition room budget) (fun _ => 0) (conditionOffer expr kind word) := by
  intro p rule statement q hroom hoffer hrule
  unfold conditionOffer at hoffer
  by_cases hends : p.current.spells kind word = true
  · rw [if_pos hends] at hoffer
    cases hoffer
  · rw [if_neg hends] at hoffer
    cases hoffer
    obtain ⟨_, htakes, ⟨hbar, hstatement⟩⟩ := sound_condition hexpr _ _ _ hroom hrule
    exact ⟨_, _, htakes, .mk hbar hstatement⟩

theorem sound_conditions
    (hexpr : Sound room budget (fun expr => Derives room (.expression expr)) Expr.charge expr) :
    Sound room budget (fun conditions tokens => conditions ≠ [] ∧ Series (Condition room budget) conditions tokens)
      (fun _ => 0) (conditions expr kind word) := by
  intro p conditions r hroom h
  obtain ⟨first, p₁, hfirst, h⟩ := bind_eq_ok.mp h
  obtain ⟨others, p₂, hothers, h⟩ := bind_eq_ok.mp h
  obtain ⟨rfl, rfl⟩ := pure_eq_ok.mp h
  obtain ⟨tokens, htokens, hcondition⟩ := sound_condition hexpr _ _ _ hroom hfirst
  obtain ⟨rest, hrest, hseries⟩ :=
    (soundRounds_condition kind word hexpr).sound_repeatWhile_free _ _ _ (htokens.hasRoom hroom) hothers
  exact ⟨_, htokens.trans hrest, by simp, .cons hcondition hseries⟩

/-- Rounds of one rule up to a token that closes them, which has to come before the input ends. -/
def untilOffer (closes : Token → Prop) [DecidablePred closes] (what : String) (rule : Rule α) (token : Token) :
    Option (Rule α) :=
  if closes token then none
  else if token.kind = .endOfInput then some (refuse (.expected what token.found))
  else some rule

theorem soundRounds_until (closes : Token → Prop) [DecidablePred closes] (what : String) {rule : Rule α}
    {derives : α → List Token → Prop} {cost : α → Nat} (hrule : Sound room budget derives cost rule)
    (hne : ∀ value tokens, derives value tokens → tokens ≠ []) :
    SoundRounds room budget derives cost (untilOffer closes what rule) := by
  intro p round value q hroom hoffer hround
  unfold untilOffer at hoffer
  by_cases hcloses : closes p.current
  · rw [if_pos hcloses] at hoffer
    cases hoffer
  rw [if_neg hcloses] at hoffer
  by_cases hend : p.current.kind = .endOfInput
  · rw [if_pos hend] at hoffer
    cases hoffer
    cases refuse_ne_ok hround
  · rw [if_neg hend] at hoffer
    cases hoffer
    obtain ⟨tokens, htakes, hderives⟩ := hrule _ _ _ hroom hround
    obtain ⟨first, tokens, rfl⟩ := List.exists_cons_of_ne_nil (hne _ _ hderives)
    exact ⟨first, tokens, htakes, hderives⟩

/-- The rule for the statements of a block, if one more bracket may be opened. -/
def SoundStatement (room budget : Nat) (statement : Rule Statement) : Prop :=
  ∀ below, room = below + 1 →
    Sound below budget (fun value => Logic .operation budget below (.statement value)) (fun _ => 0) statement

variable {statement : Rule Statement}

theorem sound_block (hstatement : SoundStatement room budget statement) :
    Sound room budget (fun value => Logic .operation budget room (.block value)) (fun _ => 0) (block statement) := by
  intro p value r hroom h
  obtain ⟨below, p', q', rfl, hbelow, -, h, htakes⟩ := takes_of_bracketed h hroom
  obtain ⟨opening, p₁, hopening, hfirst, h⟩ := (expectWord_bind_eq_ok (by decide)).mp h
  obtain ⟨statements, p₂, hstatements, h⟩ := bind_eq_ok.mp h
  obtain ⟨closing, p₃, hclosing, hlast, h⟩ := (expectWord_bind_eq_ok (by decide)).mp h
  rw [spanSince_bind] at h
  obtain ⟨rfl, rfl⟩ := pure_eq_ok.mp h
  have hrounds := soundRounds_until (fun token => token.spells .punctuation "\x7d" = true) "\x7d"
    (hstatement below rfl) (fun _ _ => Logic.ne_nil)
  obtain ⟨tokens, htokens, hseries⟩ := hrounds.sound_repeatWhile_free _ _ _ (hfirst.hasRoom hbelow) hstatements
  rw [hlast.previous, List.getLastD_cons, List.getLastD_nil]
  exact ⟨_, htakes _ _ (hfirst.cons (htokens.trans hlast)),
    .block hopening (.statements_of_series hseries) hclosing⟩

theorem sound_ruleDefinition
    (hexpr : Sound room budget (fun expr => Derives room (.expression expr)) Expr.charge expr)
    (hstatement : SoundStatement room budget statement) :
    Sound room budget (fun value => Logic .operation budget room (.bare value)) (fun _ => 0)
      (ruleDefinition expr statement) := by
  intro p value r hroom h
  obtain ⟨first, p₁, hfirst, htakes₁, h⟩ := (expectWord_bind_eq_ok (by decide)).mp h
  obtain ⟨name, p₂, hname, htakes₂, h⟩ := (expect_bind_eq_ok (by decide)).mp h
  obtain ⟨colon, p₃, hcolon, htakes₃, h⟩ := (expectWord_bind_eq_ok (by decide)).mp h
  obtain ⟨conditions, p₄, hconditions, h⟩ := bind_eq_ok.mp h
  obtain ⟨action, p₅, haction, h⟩ := bind_eq_ok.mp h
  rw [spanSince_bind] at h
  obtain ⟨rfl, rfl⟩ := pure_eq_ok.mp h
  have hroom₃ := htakes₃.hasRoom (htakes₂.hasRoom (htakes₁.hasRoom hroom))
  obtain ⟨tokens, htakes₄, hne, hseries⟩ := sound_conditions hexpr _ _ _ hroom₃ hconditions
  obtain ⟨rest, htakes₅, hblock⟩ := sound_block hstatement _ _ _ (htakes₄.hasRoom hroom₃) haction
  have htakes := htakes₁.cons (htakes₂.cons (htakes₃.cons (htakes₄.trans htakes₅)))
  rw [htakes.span_eq]
  exact ⟨_, htakes, .rule hfirst hname hcolon hne hseries hblock⟩

theorem sound_actionDefinition (hstatement : SoundStatement room budget statement) :
    Sound room budget (fun value => Logic .operation budget room (.bare value)) (fun _ => 0)
      (actionDefinition statement) := by
  intro p value r hroom h
  obtain ⟨first, p₁, hfirst, htakes₁, h⟩ := (expectWord_bind_eq_ok (by decide)).mp h
  obtain ⟨name, p₂, hname, htakes₂, h⟩ := (expect_bind_eq_ok (by decide)).mp h
  obtain ⟨action, p₃, haction, h⟩ := bind_eq_ok.mp h
  rw [spanSince_bind] at h
  obtain ⟨rfl, rfl⟩ := pure_eq_ok.mp h
  have hroom₂ := htakes₂.hasRoom (htakes₁.hasRoom hroom)
  obtain ⟨tokens, htakes₃, hblock⟩ := sound_block hstatement _ _ _ hroom₂ haction
  have htakes := htakes₁.cons (htakes₂.cons htakes₃)
  rw [htakes.span_eq]
  exact ⟨_, htakes, .action hfirst hname hblock⟩

theorem sound_conditionSet
    (hexpr : Sound room budget (fun expr => Derives room (.expression expr)) Expr.charge expr) :
    Sound room budget (fun value => Logic .operation budget room (.bare value)) (fun _ => 0) (conditionSet expr) := by
  intro p value r hroom h
  obtain ⟨first, p₁, hfirst, htakes₁, h⟩ := (expectWord_bind_eq_ok (by decide)).mp h
  obtain ⟨name, p₂, hname, htakes₂, h⟩ := (expect_bind_eq_ok (by decide)).mp h
  obtain ⟨colon, p₃, hcolon, htakes₃, h⟩ := (expectWord_bind_eq_ok (by decide)).mp h
  obtain ⟨conditions, p₄, hconditions, h⟩ := bind_eq_ok.mp h
  obtain ⟨last, p₅, hlast, htakes₅, h⟩ := (expectWord_bind_eq_ok (by decide)).mp h
  rw [spanSince_bind] at h
  obtain ⟨rfl, rfl⟩ := pure_eq_ok.mp h
  have hroom₃ := htakes₃.hasRoom (htakes₂.hasRoom (htakes₁.hasRoom hroom))
  obtain ⟨tokens, htakes₄, hne, hseries⟩ := sound_conditions hexpr _ _ _ hroom₃ hconditions
  rw [htakes₅.previous, List.getLastD_cons, List.getLastD_nil]
  exact ⟨_, htakes₁.cons (htakes₂.cons (htakes₃.cons (htakes₄.trans htakes₅))),
    .conditionSet hfirst hname hcolon hne hseries hlast⟩

theorem sound_declaration
    (hexpr : Sound room budget (fun expr => Derives room (.operation expr)) Expr.charge expr) :
    Sound room budget (fun value => Logic .operation budget room (.bare value)) (fun _ => 0) (declaration expr) := by
  intro p value r hroom h
  obtain ⟨first, p₁, hfirst, htakes₁, h⟩ := (expectWord_bind_eq_ok (by decide)).mp h
  obtain ⟨name, p₂, hname, htakes₂, h⟩ := (expect_bind_eq_ok (by decide)).mp h
  rcases (passWord_bind_eq_ok (by decide)).mp h with ⟨equals, p₃, hequals, htakes₃, h⟩ | ⟨-, h⟩
  · dsimp only at h
    rw [if_pos rfl] at h
    obtain ⟨_, p₄, hvalue, h⟩ := bind_eq_ok.mp h
    obtain ⟨defined, hdefined, rfl⟩ := map_eq_ok.mp hvalue
    rw [spanSince_bind] at h
    obtain ⟨rfl, rfl⟩ := pure_eq_ok.mp h
    have hroom₃ := htakes₃.hasRoom (htakes₂.hasRoom (htakes₁.hasRoom hroom))
    obtain ⟨p', q', hroom', hrule, htakes⟩ := takes_of_budgeted hdefined hroom₃
    obtain ⟨tokens, htokens, hderives⟩ := hexpr _ _ _ hroom' hrule
    obtain ⟨htakes₄, hcharge⟩ := htakes _ _ htokens
    have htakes := htakes₁.cons (htakes₂.cons (htakes₃.cons htakes₄))
    rw [htakes.span_eq]
    exact ⟨_, htakes, .definition hfirst hname hequals hderives hcharge⟩
  · dsimp only at h
    rw [if_neg (by decide)] at h
    obtain ⟨_, p₃, hnone, h⟩ := bind_eq_ok.mp h
    obtain ⟨rfl, rfl⟩ := pure_eq_ok.mp hnone
    rw [spanSince_bind] at h
    obtain ⟨rfl, rfl⟩ := pure_eq_ok.mp h
    rw [htakes₂.previous, List.getLastD_cons, List.getLastD_nil]
    exact ⟨_, htakes₁.cons htakes₂, .declaration hfirst hname⟩

theorem invocation_eq_ok {form : Token → Span → Statement} {value : Statement}
    (hkind : p.current.kind = .callKeyword) :
    invocation form p = .ok value q ↔ ∃ target, target.kind = .identifier ∧ p.Takes [p.current, target] 0 q ∧
      value = form target ⟨p.current, target⟩ := by
  rw [invocation, current_bind, shift_bind_eq_ok (by simp [hkind])]
  constructor
  · rintro ⟨p₁, hfirst, h⟩
    obtain ⟨target, p₂, htarget, hlast, h⟩ := (expect_bind_eq_ok (by decide)).mp h
    rw [spanSince_bind] at h
    obtain ⟨rfl, rfl⟩ := pure_eq_ok.mp h
    rw [hlast.previous]
    exact ⟨target, htarget, hfirst.cons hlast, rfl⟩
  · rintro ⟨target, htarget, htakes, rfl⟩
    obtain ⟨p₁, hfirst, hlast⟩ := htakes.uncons
    refine ⟨p₁, hfirst, (expect_bind_eq_ok (by decide)).mpr ⟨target, q, htarget, hlast, ?_⟩⟩
    rw [spanSince_bind, hlast.previous]
    exact pure_eq_ok.mpr ⟨rfl, rfl⟩

theorem sound_command (hinner : SoundWithin room budget inner) {value : Statement} (hroom : p.HasRoom room budget)
    (hevaluate : p.current.text ≠ "evaluate") (hperform : p.current.text ≠ "do")
    (hmode : AnswerMode.ofKeyword? p.current.text = none) (h : command (arguments inner) p = .ok value q) :
    ∃ tokens, p.Takes tokens 0 q ∧ Logic .operation budget room (.bare value) tokens := by
  obtain ⟨name, p₁, hname, hfirst, h⟩ := (expect_bind_eq_ok (by decide)).mp h
  obtain ⟨answers, p₂, hanswers, h⟩ := bind_eq_ok.mp h
  rw [spanSince_bind] at h
  obtain ⟨rfl, rfl⟩ := pure_eq_ok.mp h
  obtain ⟨p', q', hroom', hrule, htakes⟩ := takes_of_budgeted hanswers (hfirst.hasRoom hroom)
  obtain ⟨tokens, htokens, hderives⟩ := sound_arguments hinner _ _ _ hroom' hrule
  obtain ⟨hrest, hcharge⟩ := htakes _ _ htokens
  rw [hfirst.current_eq] at hevaluate hperform hmode
  rw [(hfirst.cons hrest).span_eq]
  exact ⟨_, hfirst.cons hrest, .command hname hevaluate hperform hmode hderives hcharge⟩

theorem sound_simple (hinner : SoundWithin room budget inner) {value : Statement} (hroom : p.HasRoom room budget)
    (h : (Statement.simple <$> simpleStatement (assignment inner)) p = .ok value q) :
    ∃ tokens, p.Takes tokens 0 q ∧ Logic .operation budget room (.bare value) tokens := by
  obtain ⟨simple, hrule, rfl⟩ := map_eq_ok.mp h
  obtain ⟨tokens, htakes, hsimple⟩ := sound_simpleStatement (sound_assignment hinner) _ _ _ hroom hrule
  exact ⟨tokens, htakes, .simple hsimple⟩

theorem sound_bareStatement (hinner : SoundWithin room budget inner)
    (hstatement : SoundStatement room budget statement) :
    Sound room budget (fun value => Logic .operation budget room (.bare value)) (fun _ => 0)
      (bareStatement inner statement) := by
  intro p value q hroom h
  have hassignment := sound_assignment hinner
  rw [bareStatement, current_bind] at h
  cases hkind : p.current.kind with
  | string => simp only [hkind] at h; exact sound_simple hinner hroom h
  | number => simp only [hkind] at h; exact sound_simple hinner hroom h
  | valueKeyword => simp only [hkind] at h; exact sound_simple hinner hroom h
  | identifier => simp only [hkind] at h; exact sound_simple hinner hroom h
  | punctuation =>
      simp only [hkind] at h
      by_cases hgroup : p.current.text = "("
      · rw [if_pos hgroup] at h
        exact sound_simple hinner hroom h
      · rw [if_neg hgroup] at h
        cases refuseUnexpected_ne_ok h
  | callKeyword =>
      simp only [hkind] at h
      by_cases hevaluate : p.current.text = "evaluate"
      · rw [if_pos hevaluate] at h
        obtain ⟨target, htarget, htakes, rfl⟩ := (invocation_eq_ok hkind).mp h
        exact ⟨_, htakes, .evaluate (Token.spells_iff.mpr ⟨hkind, hevaluate⟩) htarget⟩
      rw [if_neg hevaluate] at h
      by_cases hperform : p.current.text = "do"
      · rw [if_pos hperform] at h
        obtain ⟨target, htarget, htakes, rfl⟩ := (invocation_eq_ok hkind).mp h
        exact ⟨_, htakes, .perform (Token.spells_iff.mpr ⟨hkind, hperform⟩) htarget⟩
      rw [if_neg hperform] at h
      by_cases hmode : (AnswerMode.ofKeyword? p.current.text).isSome = true
      · rw [if_pos hmode] at h
        cases refuseUnexpected_ne_ok h
      · rw [if_neg hmode] at h
        exact sound_command hinner hroom hevaluate hperform (by simpa using hmode) h
  | keyword =>
      simp only [hkind] at h
      by_cases hrule : p.current.text = "rule"
      · rw [if_pos hrule] at h
        exact sound_ruleDefinition hassignment hstatement _ _ _ hroom h
      rw [if_neg hrule] at h
      by_cases haction : p.current.text = "action"
      · rw [if_pos haction] at h
        exact sound_actionDefinition hstatement _ _ _ hroom h
      rw [if_neg haction] at h
      by_cases hconditions : p.current.text = "conditions"
      · rw [if_pos hconditions] at h
        exact sound_conditionSet hassignment _ _ _ hroom h
      rw [if_neg hconditions] at h
      by_cases hdef : p.current.text = "def"
      · rw [if_pos hdef] at h
        exact sound_declaration (sound_operation hinner) _ _ _ hroom h
      rw [if_neg hdef] at h
      by_cases hanswer : p.current.text = "answer"
      · rw [if_pos hanswer] at h
        exact sound_simple hinner hroom h
      · rw [if_neg hanswer] at h
        cases refuseUnexpected_ne_ok h
  | _ =>
      simp only [hkind] at h
      cases refuseUnexpected_ne_ok h

/-- A semicolon after the statement belongs to it. -/
theorem sound_statement_succ (hstatement : SoundStatement room budget (Rule.statement room)) :
    Sound room budget (fun value => Logic .operation budget room (.statement value)) (fun _ => 0)
      (Rule.statement (room + 1)) := by
  intro p value q hroom h
  obtain ⟨bare, p₁, hbare, h⟩ := bind_eq_ok.mp h
  obtain ⟨tokens, htokens, hlogic⟩ :=
    sound_bareStatement (soundWithin_expression room budget) hstatement _ _ _ hroom hbare
  rcases (passWord_bind_eq_ok (by decide)).mp h with ⟨semicolon, p₂, hsemicolon, hlast, h⟩ | ⟨-, h⟩
  · obtain ⟨rfl, rfl⟩ := pure_eq_ok.mp h
    exact ⟨_, htokens.trans hlast, .ended hlogic hsemicolon⟩
  · obtain ⟨rfl, rfl⟩ := pure_eq_ok.mp h
    exact ⟨_, htokens, .unended hlogic⟩

/-- Every statement is derived within the brackets that may still be opened. -/
theorem sound_statement (room budget : Nat) :
    Sound room budget (fun value => Logic .operation budget room (.statement value)) (fun _ => 0)
      (Rule.statement (room + 1)) := by
  induction room with
  | zero => exact sound_statement_succ fun below h => by omega
  | succ room ih =>
      refine sound_statement_succ fun below h => ?_
      obtain rfl := Nat.succ.inj h
      exact ih

variable {tokens rest : List Token} {opening closing first name : Token}

theorem complete_simpleStatement {value : SimpleStatement} (h : Simple room budget value tokens)
    (hexpr : ∀ expr, Derives room (.expression expr) tokens →
      Complete room budget tokens expr.charge Token.EndsExpression inner expr) :
    Complete room budget tokens 0 Token.EndsExpression (simpleStatement inner) value := by
  obtain ⟨hderives, hcharge⟩ := h
  intro p q hroom htakes hends
  have hbudgeted := complete_budgeted hcharge (hexpr _ hderives) _ _ hroom htakes hends
  rw [simpleStatement, current_bind, htakes.current_eq]
  refine bind_eq_ok.mpr ⟨_, q, hbudgeted, ?_⟩
  rw [spanSince_bind, htakes.span_eq]
  exact pure_eq_ok.mpr ⟨rfl, rfl⟩

/-- The rule finds every derivation of an expression. -/
def CompleteExpression (room budget : Nat) (inner : Rule Expr) : Prop :=
  ∀ expr tokens, Derives room (.expression expr) tokens →
    Complete room budget tokens expr.charge Token.EndsExpression inner expr

theorem completeExpression (room budget : Nat) : CompleteExpression room budget (assignment (expression room)) :=
  fun _ _ h => h.complete budget

theorem complete_condition {value : SimpleStatement} (hinner : CompleteExpression room budget inner)
    (h : Condition room budget value tokens) :
    Complete room budget tokens 0 Token.EndsExpression (condition inner) value := by
  obtain ⟨hbar, hsimple⟩ := h
  intro p q hroom htakes hends
  obtain ⟨p₁, hfirst, hrest⟩ := htakes.uncons
  refine (expectWord_bind_eq_ok (by decide)).mpr ⟨_, p₁, hbar, hfirst, ?_⟩
  exact complete_simpleStatement hsimple (fun expr => hinner expr _) _ _ (hfirst.hasRoom hroom) hrest hends

/-- Conditions are found up to the word that ends them. -/
theorem complete_conditions (kind : TokenKind) (word : String) {values : List SimpleStatement}
    (hsound : Sound room budget (fun expr => Derives room (.expression expr)) Expr.charge inner)
    (hinner : CompleteExpression room budget inner) (hbar : kind ≠ .punctuation ∨ word ≠ "|") (hne : values ≠ [])
    (h : Series (Condition room budget) values tokens) :
    Complete room budget tokens 0 (fun token => token.EndsExpression ∧ token.spells kind word = true)
      (conditions inner kind word) values := by
  have hbars (value : SimpleStatement) (tokens : List Token) (h : Condition room budget value tokens) :
      ∃ first ∈ tokens.head?, first.spells .punctuation "|" = true := by
    obtain ⟨hbar, _⟩ := h
    exact ⟨_, rfl, hbar⟩
  have hends (value : SimpleStatement) (tokens : List Token) (h : Condition room budget value tokens) :
      ∀ first ∈ tokens.head?, first.EndsExpression := by
    obtain ⟨hbar, _⟩ := h
    intro first hhead
    cases hhead
    exact Token.endsExpression_of_spells hbar (by decide)
  have hrounds := soundRounds_condition kind word hsound
  cases h with
  | nil => exact absurd rfl hne
  | @cons value values stretch rest hvalue hseries =>
      intro p q hroom htakes hlast
      obtain ⟨p₁, hfirst, hrest⟩ := htakes.split_zero
      have hroom₁ := hfirst.hasRoom hroom
      have hends₁ := hrest.current_of_head (hseries.head hends) hlast.1
      refine bind_eq_ok.mpr ⟨value, p₁, complete_condition hinner hvalue _ _ hroom hfirst hends₁, ?_⟩
      refine bind_eq_ok.mpr ⟨values, q, ?_, pure_eq_ok.mpr ⟨rfl, rfl⟩⟩
      refine hrounds.complete_repeatWhile_free Token.EndsExpression ?_ hends hseries _ _ hroom₁ hrest
        ⟨hlast.1, by rw [conditionOffer, if_pos hlast.2]⟩
      intro p value tokens q hroom hvalue htakes hends
      obtain ⟨first, hhead, hfirst⟩ := hbars _ _ hvalue
      refine ⟨_, ?_, complete_condition hinner hvalue _ _ hroom htakes hends⟩
      rw [conditionOffer, htakes.current_of_mem_head hhead, if_neg]
      rw [Token.spells_iff]
      rintro ⟨rfl, rfl⟩
      rw [Token.spells_iff] at hfirst
      rcases hbar with hbar | hbar
      · exact hbar hfirst.1
      · exact hbar hfirst.2

theorem complete_block {statements : List Statement} (hstatement : SoundStatement (room + 1) budget statement)
    (hopening : opening.spells .punctuation "\x7b" = true) (hclosing : closing.spells .punctuation "\x7d" = true)
    (hstatements : ∀ p q, p.HasRoom room budget → p.Takes tokens 0 q → q.current.EndsStatement →
      q.current.spells .punctuation "\x7d" = true →
      Loops (untilOffer (fun token => token.spells .punctuation "\x7d" = true) "\x7d" statement) p statements q) :
    Complete (room + 1) budget (opening :: (tokens ++ [closing])) 0 (fun _ => True) (block statement)
      ⟨statements, ⟨opening, closing⟩⟩ := by
  apply complete_bracketed
  intro p q hroom htakes _
  obtain ⟨p₁, hfirst, htakes⟩ := htakes.uncons
  obtain ⟨p₂, htokens, hlast⟩ := htakes.unsnoc
  have hroom₁ := hfirst.hasRoom hroom
  rw [← hlast.current_eq] at hclosing
  have hends := Token.endsStatement_of_spells hclosing (by decide) (by decide)
  have hrounds := soundRounds_until (fun token => token.spells .punctuation "\x7d" = true) "\x7d"
    (hstatement room rfl) (fun _ _ => Logic.ne_nil)
  refine (expectWord_bind_eq_ok (by decide)).mpr ⟨opening, p₁, hopening, hfirst, ?_⟩
  refine bind_eq_ok.mpr ⟨statements, p₂, ?_, ?_⟩
  · exact (hrounds.repeatWhile_eq_ok hroom₁).mpr (hstatements _ _ hroom₁ htokens hends hclosing)
  rw [hlast.current_eq] at hclosing
  refine (expectWord_bind_eq_ok (by decide)).mpr ⟨closing, q, hclosing, hlast, ?_⟩
  rw [spanSince_bind, hlast.previous]
  exact pure_eq_ok.mpr ⟨rfl, rfl⟩

theorem complete_bareStatement_simple {value : SimpleStatement} (h : Simple room budget value tokens)
    (hinner : CompleteExpression room budget (assignment inner)) :
    Complete room budget tokens 0 Token.EndsExpression (bareStatement inner statement) (.simple value) := by
  intro p q hroom htakes hends
  obtain ⟨first, hhead, hfirst⟩ := h.starts
  have hsimple : (Statement.simple <$> simpleStatement (assignment inner)) p = .ok (.simple value) q :=
    map_eq_ok.mpr ⟨value, complete_simpleStatement h (fun expr => hinner expr _) _ _ hroom htakes hends, rfl⟩
  rw [bareStatement, current_bind, htakes.current_of_mem_head hhead]
  rcases hfirst with hkind | hkind | hkind | hkind | hspells | hspells
  · simpa only [hkind] using hsimple
  · simpa only [hkind] using hsimple
  · simpa only [hkind] using hsimple
  · simpa only [hkind] using hsimple
  · obtain ⟨hkind, htext⟩ := Token.spells_iff.mp hspells
    simp only [hkind]
    rw [if_pos htext]
    exact hsimple
  · obtain ⟨hkind, htext⟩ := Token.spells_iff.mp hspells
    simp only [hkind]
    rw [htext, if_neg (by decide), if_neg (by decide), if_neg (by decide), if_neg (by decide), if_pos rfl]
    exact hsimple

theorem complete_bareStatement_rule {colon : Token} {conditions : List SimpleStatement} {action : Block}
    (hinner : SoundWithin room budget inner) (hexpr : CompleteExpression room budget (assignment inner))
    (hfirst : first.spells .keyword "rule" = true) (hname : name.kind = .identifier)
    (hcolon : colon.spells .punctuation ":" = true) (hne : conditions ≠ [])
    (hconditions : Series (Condition room budget) conditions tokens)
    (hbrace : ∃ brace ∈ rest.head?, brace.spells .punctuation "\x7b" = true)
    (haction : Complete room budget rest 0 (fun _ => True) (block statement) action) :
    Complete room budget (first :: name :: colon :: (tokens ++ rest)) 0 Token.EndsExpression
      (bareStatement inner statement)
      (.rule name conditions action (.over first (name :: colon :: (tokens ++ rest)))) := by
  intro p q hroom htakes _
  obtain ⟨hkind, htext⟩ := Token.spells_iff.mp hfirst
  obtain ⟨p₁, htakes₁, hrest⟩ := htakes.uncons
  obtain ⟨p₂, htakes₂, hrest⟩ := hrest.uncons
  obtain ⟨p₃, htakes₃, hrest⟩ := hrest.uncons
  obtain ⟨p₄, htakes₄, htakes₅⟩ := hrest.split_zero
  have hroom₃ := htakes₃.hasRoom (htakes₂.hasRoom (htakes₁.hasRoom hroom))
  obtain ⟨brace, hhead, hbrace⟩ := hbrace
  rw [← htakes₅.current_of_mem_head hhead] at hbrace
  have hends : p₄.current.EndsExpression := Token.endsExpression_of_spells hbrace (by decide)
  have hfound := complete_conditions .punctuation "\x7b" (sound_assignment hinner) hexpr
    (.inr (by decide)) hne hconditions _ _ hroom₃ htakes₄ ⟨hends, hbrace⟩
  rw [bareStatement, current_bind, htakes.current_eq]
  simp only [hkind]
  rw [htext, if_pos rfl]
  refine (expectWord_bind_eq_ok (by decide)).mpr ⟨first, p₁, hfirst, htakes₁, ?_⟩
  refine (expect_bind_eq_ok (by decide)).mpr ⟨name, p₂, hname, htakes₂, ?_⟩
  refine (expectWord_bind_eq_ok (by decide)).mpr ⟨colon, p₃, hcolon, htakes₃, ?_⟩
  refine bind_eq_ok.mpr ⟨conditions, p₄, hfound, ?_⟩
  refine bind_eq_ok.mpr ⟨action, q, haction _ _ (htakes₄.hasRoom hroom₃) htakes₅ trivial, ?_⟩
  rw [spanSince_bind, htakes.span_eq]
  exact pure_eq_ok.mpr ⟨rfl, rfl⟩

theorem complete_bareStatement_action {action : Block} (hfirst : first.spells .keyword "action" = true)
    (hname : name.kind = .identifier)
    (haction : Complete room budget tokens 0 (fun _ => True) (block statement) action) :
    Complete room budget (first :: name :: tokens) 0 Token.EndsExpression (bareStatement inner statement)
      (.action name action (.over first (name :: tokens))) := by
  intro p q hroom htakes _
  obtain ⟨hkind, htext⟩ := Token.spells_iff.mp hfirst
  obtain ⟨p₁, htakes₁, hrest⟩ := htakes.uncons
  obtain ⟨p₂, htakes₂, htakes₃⟩ := hrest.uncons
  have hroom₂ := htakes₂.hasRoom (htakes₁.hasRoom hroom)
  rw [bareStatement, current_bind, htakes.current_eq]
  simp only [hkind]
  rw [htext, if_neg (by decide), if_pos rfl]
  refine (expectWord_bind_eq_ok (by decide)).mpr ⟨first, p₁, hfirst, htakes₁, ?_⟩
  refine (expect_bind_eq_ok (by decide)).mpr ⟨name, p₂, hname, htakes₂, ?_⟩
  refine bind_eq_ok.mpr ⟨action, q, haction _ _ hroom₂ htakes₃ trivial, ?_⟩
  rw [spanSince_bind, htakes.span_eq]
  exact pure_eq_ok.mpr ⟨rfl, rfl⟩

theorem complete_bareStatement_conditionSet {colon last : Token} {conditions : List SimpleStatement}
    (hinner : SoundWithin room budget inner) (hexpr : CompleteExpression room budget (assignment inner))
    (hfirst : first.spells .keyword "conditions" = true) (hname : name.kind = .identifier)
    (hcolon : colon.spells .punctuation ":" = true) (hne : conditions ≠ [])
    (hconditions : Series (Condition room budget) conditions tokens)
    (hlast : last.spells .keyword "end" = true) :
    Complete room budget (first :: name :: colon :: (tokens ++ [last])) 0 Token.EndsExpression
      (bareStatement inner statement) (.conditionSet name conditions ⟨first, last⟩) := by
  intro p q hroom htakes _
  obtain ⟨hkind, htext⟩ := Token.spells_iff.mp hfirst
  obtain ⟨p₁, htakes₁, hrest⟩ := htakes.uncons
  obtain ⟨p₂, htakes₂, hrest⟩ := hrest.uncons
  obtain ⟨p₃, htakes₃, hrest⟩ := hrest.uncons
  obtain ⟨p₄, htakes₄, htakes₅⟩ := hrest.unsnoc
  have hroom₃ := htakes₃.hasRoom (htakes₂.hasRoom (htakes₁.hasRoom hroom))
  have hends : p₄.current.EndsExpression ∧ p₄.current.spells .keyword "end" = true := by
    rw [htakes₅.current_eq]
    have hlastKind := (Token.spells_iff.mp hlast).1
    exact ⟨Token.endsExpression_of_kind (by simp [hlastKind]) (by simp [hlastKind]), hlast⟩
  have hfound := complete_conditions .keyword "end" (sound_assignment hinner) hexpr
    (.inl (by decide)) hne hconditions _ _ hroom₃ htakes₄ hends
  rw [bareStatement, current_bind, htakes.current_eq]
  simp only [hkind]
  rw [htext, if_neg (by decide), if_neg (by decide), if_pos rfl]
  refine (expectWord_bind_eq_ok (by decide)).mpr ⟨first, p₁, hfirst, htakes₁, ?_⟩
  refine (expect_bind_eq_ok (by decide)).mpr ⟨name, p₂, hname, htakes₂, ?_⟩
  refine (expectWord_bind_eq_ok (by decide)).mpr ⟨colon, p₃, hcolon, htakes₃, ?_⟩
  refine bind_eq_ok.mpr ⟨conditions, p₄, hfound, ?_⟩
  refine (expectWord_bind_eq_ok (by decide)).mpr ⟨last, q, hlast, htakes₅, ?_⟩
  rw [spanSince_bind, htakes₅.previous]
  exact pure_eq_ok.mpr ⟨rfl, rfl⟩

theorem complete_bareStatement_declaration (hfirst : first.spells .keyword "def" = true)
    (hname : name.kind = .identifier) :
    Complete room budget [first, name] 0 Token.EndsExpression (bareStatement inner statement)
      (.declaration name none ⟨first, name⟩) := by
  intro p q _ htakes hends
  obtain ⟨hkind, htext⟩ := Token.spells_iff.mp hfirst
  obtain ⟨p₁, htakes₁, htakes₂⟩ := htakes.uncons
  rw [bareStatement, current_bind, htakes.current_eq]
  simp only [hkind]
  rw [htext, if_neg (by decide), if_neg (by decide), if_neg (by decide), if_pos rfl]
  refine (expectWord_bind_eq_ok (by decide)).mpr ⟨first, p₁, hfirst, htakes₁, ?_⟩
  refine (expect_bind_eq_ok (by decide)).mpr ⟨name, q, hname, htakes₂, ?_⟩
  refine (passWord_bind_eq_ok (by decide)).mpr (.inr ⟨Token.spells_eq_false_of_kind hends.2, ?_⟩)
  dsimp only
  rw [if_neg (by decide)]
  refine bind_eq_ok.mpr ⟨none, q, pure_eq_ok.mpr ⟨rfl, rfl⟩, ?_⟩
  rw [spanSince_bind, htakes₂.previous]
  exact pure_eq_ok.mpr ⟨rfl, rfl⟩

theorem complete_bareStatement_definition {equals : Token} {value : Expr}
    (hfirst : first.spells .keyword "def" = true) (hname : name.kind = .identifier)
    (hequals : equals.spells .operator "=" = true) (hcharge : value.charge ≤ budget)
    (hvalue : Complete room budget tokens value.charge Token.EndsOperation (operation inner) value) :
    Complete room budget (first :: name :: equals :: tokens) 0 Token.EndsExpression (bareStatement inner statement)
      (.declaration name (some value) (.over first (name :: equals :: tokens))) := by
  intro p q hroom htakes hends
  obtain ⟨hkind, htext⟩ := Token.spells_iff.mp hfirst
  obtain ⟨p₁, htakes₁, hrest⟩ := htakes.uncons
  obtain ⟨p₂, htakes₂, hrest⟩ := hrest.uncons
  obtain ⟨p₃, htakes₃, htakes₄⟩ := hrest.uncons
  have hroom₃ := htakes₃.hasRoom (htakes₂.hasRoom (htakes₁.hasRoom hroom))
  have hbudgeted := complete_budgeted hcharge hvalue _ _ hroom₃ htakes₄ hends.operation
  rw [bareStatement, current_bind, htakes.current_eq]
  simp only [hkind]
  rw [htext, if_neg (by decide), if_neg (by decide), if_neg (by decide), if_pos rfl]
  refine (expectWord_bind_eq_ok (by decide)).mpr ⟨first, p₁, hfirst, htakes₁, ?_⟩
  refine (expect_bind_eq_ok (by decide)).mpr ⟨name, p₂, hname, htakes₂, ?_⟩
  refine (passWord_bind_eq_ok (by decide)).mpr (.inl ⟨equals, p₃, hequals, htakes₃, ?_⟩)
  dsimp only
  rw [if_pos rfl]
  refine bind_eq_ok.mpr ⟨some value, q, map_eq_ok.mpr ⟨value, hbudgeted, rfl⟩, ?_⟩
  rw [spanSince_bind, htakes.span_eq]
  exact pure_eq_ok.mpr ⟨rfl, rfl⟩

theorem complete_bareStatement_command {answers : List Expr} (hname : name.kind = .callKeyword)
    (hevaluate : name.text ≠ "evaluate") (hperform : name.text ≠ "do")
    (hmode : AnswerMode.ofKeyword? name.text = none) (hcharge : Expr.charges answers ≤ budget)
    (hanswers : Complete room budget tokens (Expr.charges answers) (fun _ => True) (arguments inner) answers) :
    Complete room budget (name :: tokens) 0 Token.EndsExpression (bareStatement inner statement)
      (.command name answers (.over name tokens)) := by
  intro p q hroom htakes _
  obtain ⟨p₁, hfirst, hrest⟩ := htakes.uncons
  have hbudgeted := complete_budgeted hcharge hanswers _ _ (hfirst.hasRoom hroom) hrest trivial
  rw [bareStatement, current_bind, htakes.current_eq]
  simp only [hname]
  rw [if_neg hevaluate, if_neg hperform, if_neg (by simp [hmode])]
  refine (expect_bind_eq_ok (by decide)).mpr ⟨name, p₁, hname, hfirst, ?_⟩
  refine bind_eq_ok.mpr ⟨answers, q, hbudgeted, ?_⟩
  rw [spanSince_bind, htakes.span_eq]
  exact pure_eq_ok.mpr ⟨rfl, rfl⟩

theorem complete_bareStatement_evaluate {target : Token} (hfirst : first.spells .callKeyword "evaluate" = true)
    (htarget : target.kind = .identifier) :
    Complete room budget [first, target] 0 Token.EndsExpression (bareStatement inner statement)
      (.evaluate target ⟨first, target⟩) := by
  intro p q _ htakes _
  obtain ⟨hkind, htext⟩ := Token.spells_iff.mp hfirst
  obtain rfl := htakes.current_eq
  rw [bareStatement, current_bind]
  simp only [hkind]
  rw [if_pos htext]
  exact (invocation_eq_ok hkind).mpr ⟨target, htarget, htakes, rfl⟩

theorem complete_bareStatement_perform {target : Token} (hfirst : first.spells .callKeyword "do" = true)
    (htarget : target.kind = .identifier) :
    Complete room budget [first, target] 0 Token.EndsExpression (bareStatement inner statement)
      (.perform target ⟨first, target⟩) := by
  intro p q _ htakes _
  obtain ⟨hkind, htext⟩ := Token.spells_iff.mp hfirst
  obtain rfl := htakes.current_eq
  rw [bareStatement, current_bind]
  simp only [hkind]
  rw [if_neg (by simp [htext]), if_pos htext]
  exact (invocation_eq_ok hkind).mpr ⟨target, htarget, htakes, rfl⟩

theorem soundStatement (room budget : Nat) : SoundStatement room budget (Rule.statement room) := by
  intro below h
  subst h
  exact sound_statement below budget

/-- A semicolon after a statement is taken if there is one. -/
theorem complete_statement_unended {value : Statement}
    (h : Complete room budget tokens 0 Token.EndsExpression
      (bareStatement (expression room) (Rule.statement room)) value) :
    Complete room budget tokens 0 Token.EndsStatement (Rule.statement (room + 1)) value := by
  intro p q hroom htakes hends
  refine bind_eq_ok.mpr ⟨value, q, h _ _ hroom htakes hends.1, ?_⟩
  exact (passWord_bind_eq_ok (by decide)).mpr (.inr ⟨hends.2, pure_eq_ok.mpr ⟨rfl, rfl⟩⟩)

theorem complete_statement_ended {value : Statement} {semicolon : Token}
    (h : Complete room budget tokens 0 Token.EndsExpression
      (bareStatement (expression room) (Rule.statement room)) value)
    (hsemicolon : semicolon.spells .punctuation ";" = true) :
    Complete room budget (tokens ++ [semicolon]) 0 Token.EndsStatement (Rule.statement (room + 1)) value := by
  intro p q hroom htakes _
  obtain ⟨p₁, htokens, hlast⟩ := htakes.unsnoc
  have hends : p₁.current.EndsExpression := by
    rw [hlast.current_eq]
    exact Token.endsExpression_of_spells hsemicolon (by decide)
  refine bind_eq_ok.mpr ⟨value, p₁, h _ _ hroom htokens hends, ?_⟩
  exact (passWord_bind_eq_ok (by decide)).mpr (.inl ⟨semicolon, q, hsemicolon, hlast, pure_eq_ok.mpr ⟨rfl, rfl⟩⟩)

/-- What the rule for a clause does with the tokens of a derivation. -/
def CompleteClause (budget room : Nat) (tokens : List Token) : Clause → Prop
  | .statement value => Complete room budget tokens 0 Token.EndsStatement (Rule.statement (room + 1)) value
  | .bare value =>
      Complete room budget tokens 0 Token.EndsExpression (bareStatement (expression room) (Rule.statement room)) value
  | .statements values => ∀ (closes : Token → Prop) [DecidablePred closes] (what : String) (p q : Parser),
      (∀ token : Token, token.StartsStatement → ¬closes token) → p.HasRoom room budget → p.Takes tokens 0 q →
      q.current.EndsStatement → closes q.current → Loops (untilOffer closes what (Rule.statement (room + 1))) p values q
  | .block value => Complete room budget tokens 0 (fun _ => True) (block (Rule.statement room)) value

end Rule

open Rule in
/-- Every derivation is found. -/
theorem Logic.complete {room budget : Nat} {clause : Clause} {tokens : List Token}
    (h : Logic .operation budget room clause tokens) : CompleteClause budget room tokens clause := by
  induction h with
  | @simple room _ _ hstatement => exact complete_bareStatement_simple hstatement (completeExpression room budget)
  | @rule room _ _ _ _ _ _ _ hfirst hname hcolon hne hconditions haction ih =>
      exact complete_bareStatement_rule (soundWithin_expression room budget) (completeExpression room budget) hfirst
        hname hcolon hne hconditions haction.starts ih
  | action hfirst hname _ ih => exact complete_bareStatement_action hfirst hname ih
  | @conditionSet room _ _ _ _ _ _ hfirst hname hcolon hne hconditions hlast =>
      exact complete_bareStatement_conditionSet (soundWithin_expression room budget) (completeExpression room budget)
        hfirst hname hcolon hne hconditions hlast
  | declaration hfirst hname => exact complete_bareStatement_declaration hfirst hname
  | definition hfirst hname hequals hvalue hcharge =>
      exact complete_bareStatement_definition hfirst hname hequals hcharge (hvalue.complete budget)
  | command hname hevaluate hperform hmode harguments hcharge =>
      exact complete_bareStatement_command hname hevaluate hperform hmode hcharge (harguments.complete budget)
  | evaluate hfirst htarget => exact complete_bareStatement_evaluate hfirst htarget
  | perform hfirst htarget => exact complete_bareStatement_perform hfirst htarget
  | unended _ ih => exact complete_statement_unended ih
  | ended _ hsemicolon ih => exact complete_statement_ended ih hsemicolon
  | noStatements =>
      intro closes _ what p q _ _ htakes _ hcloses
      obtain rfl := htakes.unique (Parser.Takes.refl p)
      exact .done (by rw [untilOffer, if_pos hcloses])
  | @statements room _ _ _ _ hstatement hstatements ih ihRest =>
      intro closes _ what p q hstarts hroom htakes hends hcloses
      obtain ⟨p₁, hfirst, hrest⟩ := htakes.split_zero
      have hroom₁ := hfirst.hasRoom hroom
      have hends₁ : p₁.current.EndsStatement :=
        hrest.current_of_head (fun first hhead => (hstatements.starts first hhead).endsStatement) hends
      obtain ⟨first, hhead, hstart⟩ := hstatement.starts
      rw [← hfirst.current_of_mem_head hhead] at hstart
      refine .round ?_ (ih _ _ hroom hfirst hends₁) (ihRest closes what _ _ hstarts hroom₁ hrest hends hcloses)
      rw [untilOffer, if_neg (hstarts _ hstart), if_neg hstart.kind_ne_endOfInput]
  | @block room _ _ _ _ hopening _ hclosing ih =>
      refine complete_block (soundStatement (room + 1) budget) hopening hclosing ?_
      intro p q hroom htakes hends hcloses
      refine ih _ _ _ _ (fun token hstart => ?_) hroom htakes hends hcloses
      rw [hstart.spells_eq_false (by decide)]
      decide

end Questionnaire
