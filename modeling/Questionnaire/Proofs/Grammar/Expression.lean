import Questionnaire.Proofs.Grammar.Reading

/-! The rules for expressions read what the grammar derives. They are sound, with the charges of the answer, and they
are complete wherever the tokens of a derivation are followed by one that ends them. Rules for what stands between
brackets are taken with one bracket less, and the levels are tied together by induction on the brackets that may
still be opened. -/

namespace Questionnaire

namespace Expr

@[simp] theorem charge_withSpan (expr : Expr) (span : Span) : (expr.withSpan span).charge = expr.charge := by
  cases expr <;> rfl

theorem charge_withMembers (container : Expr) (names : List Token) :
    (container.withMembers names).charge = container.charge + names.length := by
  induction names generalizing container with
  | nil => rfl
  | cons name names ih =>
      have hstep : container.withMembers (name :: names) =
          (Expr.property container name ⟨container.span.first, name⟩).withMembers names := rfl
      rw [hstep, ih, charge, List.length_cons]
      omega

@[simp] theorem charge_constant (word : String) (span : Span) : (Rule.constant word span).charge = 0 := by
  unfold Rule.constant
  split
  · rfl
  · split <;> rfl

theorem isReference_withSpan (expr : Expr) (span : Span) : (expr.withSpan span).isReference = expr.isReference := by
  cases expr <;> rfl

end Expr

namespace Chain

theorem total_append {α : Type} (cost : α → Nat) (left right : List α) :
    total cost (left ++ right) = total cost left + total cost right := by
  induction left with
  | nil => exact (Nat.zero_add _).symm
  | cons value left ih => rw [List.cons_append, total, total, ih, Nat.add_assoc]

theorem charge_expr (chain : Chain) : chain.expr.charge = chain.first.charge + charges chain.links := by
  induction chain with
  | operand => rfl
  | operation left op right ihLeft ihRight =>
      have hlinks : charges (left.links ++ (op, right.first) :: right.links) =
          charges left.links + (1 + right.first.charge + charges right.links) := total_append ..
      rw [expr, Expr.charge, ihLeft, ihRight, first, links, hlinks]
      omega

end Chain

theorem total_one {α : Type} (values : List α) : total (fun _ => 1) values = values.length := by
  induction values with
  | nil => rfl
  | cons value values ih => rw [total, ih, List.length_cons, Nat.add_comm]

/-- An operator with the operand after it. -/
inductive Linked (room : Nat) : BinaryOp × Expr → List Token → Prop where
  | mk {token : Token} {op : BinaryOp} {expr : Expr} {tokens : List Token} (hkind : token.kind = .operator)
      (hop : BinaryOp.ofLexeme? token.text = some op) (hexpr : Derives room (.operand expr) tokens) :
      Linked room (op, expr) (token :: tokens)

/-- An argument with the comma before it. -/
inductive Following (room : Nat) : Expr → List Token → Prop where
  | mk {comma : Token} {answer : Expr} {tokens : List Token} (hcomma : comma.spells .punctuation "," = true)
      (hanswer : Derives room (.expression answer) tokens) : Following room answer (comma :: tokens)

theorem Derives.links_of_series {room : Nat} {links : List (BinaryOp × Expr)} {tokens : List Token}
    (h : Series (Linked room) links tokens) : Derives room (.links links) tokens := by
  induction h with
  | nil => exact .noLinks
  | cons hlink _ ih =>
      cases hlink with
      | mk hkind hop hexpr => exact .link hkind hop hexpr ih

theorem Derives.further_of_series {room : Nat} {answers : List Expr} {tokens : List Token}
    (h : Series (Following room) answers tokens) : Derives room (.further answers) tokens := by
  induction h with
  | nil => exact .noFurther
  | cons hanswer _ ih =>
      cases hanswer with
      | mk hcomma hexpr => exact .further hcomma hexpr ih

namespace Rule

open Questionnaire.Parser (Takes)

variable {room budget : Nat} {inner : Rule Expr} {p q : Parser}

/-- The rule for what stands between brackets, if one more may be opened. -/
def SoundWithin (room budget : Nat) (inner : Rule Expr) : Prop :=
  ∀ below, room = below + 1 → Sound below budget (fun expr => Derives below (.expression expr)) Expr.charge inner

/-- The members asked for, one round each. -/
def memberOffer (token : Token) : Option (Rule Token) :=
  if token.spells .punctuation "." then some do
    charge
    shift
    let name ← current
    if name.kind = .identifier then
      shift
      return name
    else refuse .invalidProperty
  else none

theorem soundRounds_member : SoundRounds room budget Member (fun _ => 1) memberOffer := by
  intro p rule name q hroom hoffer hrule
  unfold memberOffer at hoffer
  split at hoffer
  next hdot =>
    cases hoffer
    obtain ⟨p₁, hcharged, hrule⟩ := charge_bind_eq_ok.mp hrule
    rw [hcharged.current_eq_headD, List.headD_nil] at hdot
    obtain ⟨p₂, hpassed, hrule⟩ := (shift_bind_eq_ok (by simp [(Token.spells_iff.mp hdot).1])).mp hrule
    rw [current_bind] at hrule
    split at hrule
    next hname =>
      obtain ⟨p₃, hpassed', hpure⟩ := (shift_bind_eq_ok (by simp [hname])).mp hrule
      obtain ⟨rfl, rfl⟩ := pure_eq_ok.mp hpure
      exact ⟨_, _, hcharged.trans (hpassed.cons hpassed'), .mk hdot hname⟩
    next => cases refuse_ne_ok hrule
  next => cases hoffer

theorem withMembers_of_eq_ok {container expr : Expr} (hroom : p.HasRoom room budget)
    (h : withMembers container p = .ok expr q) :
    ∃ names tokens, p.Takes tokens names.length q ∧ Series Member names tokens ∧
      (names = [] ∨ container.isReference = true) ∧ expr = container.withMembers names := by
  unfold withMembers at h
  split at h
  next hreference =>
    obtain ⟨names, q', hmembers, hpure⟩ := bind_eq_ok.mp h
    obtain ⟨rfl, rfl⟩ := pure_eq_ok.mp hpure
    obtain ⟨tokens, htakes, hseries⟩ := soundRounds_member.sound_repeatWhile _ _ _ hroom hmembers
    rw [total_one] at htakes
    exact ⟨names, tokens, htakes, hseries, .inr hreference, rfl⟩
  next =>
    obtain ⟨rfl, rfl⟩ := pure_eq_ok.mp h
    exact ⟨[], [], Takes.refl p, .nil, .inl rfl, rfl⟩

/-- The arguments after the first, one round each. -/
def furtherOffer (inner : Rule Expr) (token : Token) : Option (Rule Expr) :=
  if token.spells .punctuation "," then some do
    shift
    inner
  else none

theorem soundRounds_further
    (hinner : Sound room budget (fun expr => Derives room (.expression expr)) Expr.charge inner) :
    SoundRounds room budget (Following room) Expr.charge (furtherOffer inner) := by
  intro p rule answer q hroom hoffer hrule
  unfold furtherOffer at hoffer
  split at hoffer
  next hcomma =>
    cases hoffer
    obtain ⟨p₁, hpassed, hrule⟩ := (shift_bind_eq_ok (by simp [(Token.spells_iff.mp hcomma).1])).mp hrule
    obtain ⟨tokens, htakes, hderives⟩ := hinner _ _ _ (hpassed.hasRoom hroom) hrule
    exact ⟨_, _, hpassed.cons htakes, .mk hcomma hderives⟩
  next => cases hoffer

theorem sound_arguments (hinner : SoundWithin room budget inner) :
    Sound room budget (fun answers => Derives room (.arguments answers)) Expr.charges (arguments inner) := by
  intro p answers r hroom h
  obtain ⟨below, p', q, rfl, hbelow, -, h, htakes⟩ := takes_of_bracketed h hroom
  obtain ⟨opening, p₁, hopening, hfirst, h⟩ := (expectWord_bind_eq_ok (by decide)).mp h
  have hroom₁ := hfirst.hasRoom hbelow
  rw [current_bind] at h
  dsimp only at h
  split at h
  next =>
    obtain ⟨_, _, hnone, h⟩ := bind_eq_ok.mp h
    obtain ⟨rfl, rfl⟩ := pure_eq_ok.mp hnone
    obtain ⟨closing, p₂, hclosing, hlast, hpure⟩ := (expectWord_bind_eq_ok (by decide)).mp h
    obtain ⟨rfl, rfl⟩ := pure_eq_ok.mp hpure
    exact ⟨_, htakes _ _ (hfirst.cons hlast), .noArguments hopening hclosing⟩
  next =>
    obtain ⟨answer, p₂, hanswer, h⟩ := bind_eq_ok.mp h
    obtain ⟨others, p₃, hothers, h⟩ := bind_eq_ok.mp h
    obtain ⟨_, _, hall, h⟩ := bind_eq_ok.mp h
    obtain ⟨rfl, rfl⟩ := pure_eq_ok.mp hall
    obtain ⟨closing, p₄, hclosing, hlast, hpure⟩ := (expectWord_bind_eq_ok (by decide)).mp h
    obtain ⟨rfl, rfl⟩ := pure_eq_ok.mp hpure
    obtain ⟨tokens, htokens, hderives⟩ := hinner below rfl _ _ _ hroom₁ hanswer
    obtain ⟨rest, hrest, hseries⟩ :=
      (soundRounds_further (hinner below rfl)).sound_repeatWhile _ _ _ (htokens.hasRoom hroom₁) hothers
    rw [← Expr.charges_eq_total] at hrest
    exact ⟨_, htakes _ _ (hfirst.cons (htokens.trans (hrest.trans hlast))),
      .arguments hopening hderives (.further_of_series hseries) hclosing⟩

theorem group_of_eq_ok {expr : Expr} (hinner : SoundWithin room budget inner) (hroom : p.HasRoom room budget)
    (hcurrent : p.current.spells .punctuation "(" = true) (h : group inner p = .ok expr q) :
    ∃ below opening closing body tokens, room = below + 1 ∧ opening.spells .punctuation "(" = true ∧
      closing.spells .punctuation ")" = true ∧ Derives below (.expression body) tokens ∧
      expr = body.withSpan ⟨opening, closing⟩ ∧ p.Takes (opening :: (tokens ++ [closing])) body.charge q := by
  obtain ⟨below, p', q', rfl, hbelow, hsame, h, htakes⟩ := takes_of_bracketed h hroom
  rw [← hsame] at hcurrent
  rw [current_bind] at h
  obtain ⟨p₁, hfirst, h⟩ := (shift_bind_eq_ok (by simp [(Token.spells_iff.mp hcurrent).1])).mp h
  obtain ⟨body, p₂, hbody, h⟩ := bind_eq_ok.mp h
  obtain ⟨closing, p₃, hclosing, hlast, hpure⟩ := (expectWord_bind_eq_ok (by decide)).mp h
  obtain ⟨rfl, rfl⟩ := pure_eq_ok.mp hpure
  obtain ⟨tokens, htokens, hderives⟩ := hinner below rfl _ _ _ (hfirst.hasRoom hbelow) hbody
  exact ⟨below, _, closing, body, tokens, rfl, hcurrent, hclosing, hderives, rfl,
    htakes _ _ (hfirst.cons (htokens.trans hlast))⟩

theorem answerMode_eq_ok {mode : AnswerMode} :
    answerMode p = .ok mode q ↔
      ∃ call, call.kind = .callKeyword ∧ AnswerMode.ofKeyword? call.text = some mode ∧ p.Takes [call] 0 q := by
  rw [answerMode, current_bind]
  constructor
  · intro h
    cases hmode : AnswerMode.ofKeyword? p.current.text with
    | none =>
        rw [hmode] at h
        cases refuseUnexpected_ne_ok h
    | some found =>
        rw [hmode] at h
        dsimp only at h
        split at h
        next hkind =>
          obtain ⟨p₁, htakes, hpure⟩ := (shift_bind_eq_ok (by simp [hkind])).mp h
          obtain ⟨rfl, rfl⟩ := pure_eq_ok.mp hpure
          exact ⟨_, hkind, hmode, htakes⟩
        next => cases refuseUnexpected_ne_ok h
  · rintro ⟨call, hkind, hmode, htakes⟩
    rw [← htakes.current_eq] at hkind hmode htakes
    rw [hmode]
    dsimp only
    rw [if_pos hkind]
    exact (shift_bind_eq_ok (by simp [hkind])).mpr ⟨q, htakes, pure_eq_ok.mpr ⟨rfl, rfl⟩⟩

theorem number_eq_ok {expr : Expr} (hkind : p.current.kind = .number) :
    number p = .ok expr q ↔ ∃ value, Double.read? p.current.text.toList = some value ∧
      expr = .number value (.single p.current) ∧ p.Takes [p.current] 0 q := by
  rw [number, current_bind, shift_bind_eq_ok (by simp [hkind])]
  constructor
  · rintro ⟨p₁, htakes, h⟩
    cases hvalue : Double.read? p.current.text.toList with
    | none =>
        rw [hvalue] at h
        cases h
    | some value =>
        rw [hvalue] at h
        obtain ⟨rfl, rfl⟩ := pure_eq_ok.mp h
        exact ⟨value, rfl, rfl, htakes⟩
  · rintro ⟨value, hvalue, rfl, htakes⟩
    refine ⟨q, htakes, ?_⟩
    rw [hvalue]
    exact pure_eq_ok.mpr ⟨rfl, rfl⟩

theorem sound_answered (hinner : SoundWithin room budget inner) :
    Sound room budget (fun expr => Derives room (.operand expr)) Expr.charge (answered inner) := by
  intro p expr r hroom h
  obtain ⟨first, p₁, hfirst, htakes₁, h⟩ := (expectWord_bind_eq_ok (by decide)).mp h
  obtain ⟨filler, p₂, hfiller, htakes₂, h⟩ := (expectWord_bind_eq_ok (by decide)).mp h
  obtain ⟨question, p₃, hquestion, htakes₃, h⟩ := (expect_bind_eq_ok (by decide)).mp h
  obtain ⟨mode, p₄, hmode, h⟩ := bind_eq_ok.mp h
  obtain ⟨call, hcall, hmode, htakes₄⟩ := answerMode_eq_ok.mp hmode
  obtain ⟨answers, p₅, hanswers, h⟩ := bind_eq_ok.mp h
  rw [spanSince_bind] at h
  obtain ⟨rfl, rfl⟩ := pure_eq_ok.mp h
  have hroom₄ := htakes₄.hasRoom (htakes₃.hasRoom (htakes₂.hasRoom (htakes₁.hasRoom hroom)))
  obtain ⟨tokens, htakes₅, hderives⟩ := sound_arguments hinner _ _ _ hroom₄ hanswers
  have htakes := htakes₁.cons (htakes₂.cons (htakes₃.cons (htakes₄.cons htakes₅)))
  rw [htakes.span_eq]
  exact ⟨_, htakes, .answered hfirst hfiller hquestion hcall hmode hderives⟩

theorem sound_operand (hinner : SoundWithin room budget inner) :
    Sound room budget (fun expr => Derives room (.operand expr)) Expr.charge (operand inner) := by
  intro p expr q hroom h
  rw [operand, current_bind] at h
  cases hkind : p.current.kind with
  | punctuation =>
      simp only [hkind] at h
      by_cases htext : p.current.text = "("
      · rw [if_pos htext] at h
        obtain ⟨container, p₁, hgroup, h⟩ := bind_eq_ok.mp h
        have hcurrent := Token.spells_iff.mpr ⟨hkind, htext⟩
        obtain ⟨below, opening, closing, body, tokens, rfl, hopening, hclosing, hbody, rfl, htakes⟩ :=
          group_of_eq_ok hinner hroom hcurrent hgroup
        obtain ⟨names, members, hnames, hseries, hreference, rfl⟩ := withMembers_of_eq_ok (htakes.hasRoom hroom) h
        rw [Expr.isReference_withSpan] at hreference
        refine ⟨_, ?_, .group hopening hbody hclosing hseries hreference⟩
        rw [Expr.charge_withMembers, Expr.charge_withSpan]
        simpa using htakes.trans hnames
      · rw [if_neg htext] at h
        cases refuseUnexpected_ne_ok h
  | identifier =>
      simp only [hkind] at h
      obtain ⟨p₁, htakes, h⟩ := (shift_bind_eq_ok (by simp [hkind])).mp h
      obtain ⟨names, members, hnames, hseries, -, rfl⟩ := withMembers_of_eq_ok (htakes.hasRoom hroom) h
      refine ⟨_, ?_, .reference hkind hseries⟩
      rw [Expr.charge_withMembers, Expr.charge, Nat.zero_add]
      exact htakes.cons hnames
  | number =>
      simp only [hkind] at h
      obtain ⟨value, hvalue, rfl, htakes⟩ := (number_eq_ok hkind).mp h
      exact ⟨_, htakes, .number hkind hvalue⟩
  | string =>
      simp only [hkind] at h
      obtain ⟨p₁, htakes, h⟩ := (shift_bind_eq_ok (by simp [hkind])).mp h
      obtain ⟨rfl, rfl⟩ := pure_eq_ok.mp h
      exact ⟨_, htakes, .string hkind⟩
  | valueKeyword =>
      simp only [hkind] at h
      obtain ⟨p₁, htakes, h⟩ := (shift_bind_eq_ok (by simp [hkind])).mp h
      obtain ⟨rfl, rfl⟩ := pure_eq_ok.mp h
      refine ⟨_, ?_, .constant hkind⟩
      rw [Expr.charge_constant]
      exact htakes
  | keyword =>
      simp only [hkind] at h
      by_cases htext : p.current.text = "answer"
      · rw [if_pos htext] at h
        exact sound_answered hinner _ _ _ hroom h
      · rw [if_neg htext] at h
        cases refuseUnexpected_ne_ok h
  | _ =>
      simp only [hkind] at h
      cases refuseUnexpected_ne_ok h

/-- The operators and operands after the first operand, one round each. -/
def linkOffer (inner : Rule Expr) (token : Token) : Option (Rule (BinaryOp × Expr)) :=
  if token.kind = .operator then
    (BinaryOp.ofLexeme? token.text).map fun op => do
      charge
      shift
      return (op, ← operand inner)
  else none

theorem soundRounds_link (hinner : SoundWithin room budget inner) :
    SoundRounds room budget (Linked room) (fun link => 1 + link.2.charge) (linkOffer inner) := by
  intro p rule link q hroom hoffer hrule
  unfold linkOffer at hoffer
  split at hoffer
  next hkind =>
    obtain ⟨op, hop, rfl⟩ := Option.map_eq_some_iff.mp hoffer
    obtain ⟨p₁, hcharged, hrule⟩ := charge_bind_eq_ok.mp hrule
    rw [hcharged.current_eq_headD, List.headD_nil] at hkind hop
    obtain ⟨p₂, hpassed, hrule⟩ := (shift_bind_eq_ok (by simp [hkind])).mp hrule
    obtain ⟨expr, p₃, hexpr, hpure⟩ := bind_eq_ok.mp hrule
    obtain ⟨rfl, rfl⟩ := pure_eq_ok.mp hpure
    have hroom₂ := hpassed.hasRoom (hcharged.hasRoom hroom)
    obtain ⟨tokens, htakes, hderives⟩ := sound_operand hinner _ _ _ hroom₂ hexpr
    exact ⟨_, _, hcharged.trans (hpassed.cons htakes), .mk hkind hop hderives⟩
  next => cases hoffer

theorem sound_operation (hinner : SoundWithin room budget inner) :
    Sound room budget (fun expr => Derives room (.operation expr)) Expr.charge (operation inner) := by
  intro p expr r hroom h
  obtain ⟨first, p₁, hfirst, h⟩ := bind_eq_ok.mp h
  obtain ⟨links, p₂, hlinks, hpure⟩ := bind_eq_ok.mp h
  obtain ⟨rfl, rfl⟩ := pure_eq_ok.mp hpure
  obtain ⟨tokens, htokens, hderives⟩ := sound_operand hinner _ _ _ hroom hfirst
  obtain ⟨rest, hrest, hseries⟩ :=
    (soundRounds_link hinner).sound_repeatWhile _ _ _ (htokens.hasRoom hroom) hlinks
  refine ⟨tokens ++ rest, ?_, .operation (Chain.ordered_ofLinks first links) ?_ ?_⟩
  · rw [Chain.charge_expr, Chain.first_ofLinks, Chain.links_ofLinks]
    exact htokens.trans hrest
  · rw [Chain.first_ofLinks]
    exact hderives
  · rw [Chain.links_ofLinks]
    exact .links_of_series hseries

theorem sound_assignment (hinner : SoundWithin room budget inner) :
    Sound room budget (fun expr => Derives room (.expression expr)) Expr.charge (assignment inner) := by
  intro p expr r hroom h
  obtain ⟨left, p₁, hleft, h⟩ := bind_eq_ok.mp h
  obtain ⟨tokens, htokens, hderives⟩ := sound_operation hinner _ _ _ hroom hleft
  rw [current_bind] at h
  split at h
  next hequals =>
    cases left with
    | symbol target span =>
        obtain ⟨p₂, hpassed, h⟩ := (shift_bind_eq_ok (by simp [(Token.spells_iff.mp hequals).1])).mp h
        obtain ⟨value, p₃, hvalue, hpure⟩ := bind_eq_ok.mp h
        obtain ⟨rfl, rfl⟩ := pure_eq_ok.mp hpure
        obtain ⟨rest, hrest, hderives'⟩ :=
          sound_operation hinner _ _ _ (hpassed.hasRoom (htokens.hasRoom hroom)) hvalue
        refine ⟨_, ?_, .assign hderives hequals hderives'⟩
        simpa [Expr.charge] using htokens.trans (hpassed.cons hrest)
    | _ => cases refuse_ne_ok h
  next =>
    obtain ⟨rfl, rfl⟩ := pure_eq_ok.mp h
    exact ⟨tokens, htokens, .bare hderives⟩

/-- Every answer is derived within the brackets that may still be opened. -/
theorem sound_expression (room budget : Nat) :
    Sound room budget (fun expr => Derives room (.expression expr)) Expr.charge (expression (room + 1)) := by
  induction room with
  | zero => exact sound_assignment fun below h => by omega
  | succ room ih =>
      refine sound_assignment fun below h => ?_
      obtain rfl := Nat.succ.inj h
      exact ih

theorem soundWithin_expression (room budget : Nat) : SoundWithin room budget (expression room) := by
  intro below h
  subst h
  exact sound_expression below budget

end Rule

namespace Token

/-- No member is asked for. -/
def EndsOperand (token : Token) : Prop := token.spells .punctuation "." = false

/-- Neither a member is asked for, nor is there another operand. -/
def EndsOperation (token : Token) : Prop :=
  token.EndsOperand ∧ (token.kind = .operator → BinaryOp.ofLexeme? token.text = none)

/-- Neither a member is asked for, nor is there another operand or a value. -/
def EndsExpression (token : Token) : Prop := token.EndsOperand ∧ token.kind ≠ .operator

variable {token : Token} {kind : TokenKind} {word : String}

theorem spells_eq_false_of_kind (h : token.kind ≠ kind) : token.spells kind word = false := by
  simp [spells, h]

theorem EndsExpression.operation (h : token.EndsExpression) : token.EndsOperation :=
  ⟨h.1, fun hkind => absurd hkind h.2⟩

theorem endsExpression_of_kind (hpunctuation : token.kind ≠ .punctuation) (hoperator : token.kind ≠ .operator) :
    token.EndsExpression := ⟨spells_eq_false_of_kind hpunctuation, hoperator⟩

theorem endsExpression_of_spells (h : token.spells .punctuation word = true) (hword : word ≠ ".") :
    token.EndsExpression := by
  obtain ⟨hkind, rfl⟩ := spells_iff.mp h
  exact ⟨by simp [EndsOperand, spells, hword], by simp [hkind]⟩

/-- An operand begins with the token. -/
def StartsExpression (token : Token) : Prop :=
  token.kind = .number ∨ token.kind = .string ∨ token.kind = .valueKeyword ∨ token.kind = .identifier ∨
    token.spells .punctuation "(" = true ∨ token.spells .keyword "answer" = true

theorem spells_eq_false_of_spells {other : String} (h : token.spells kind word = true) (hne : word ≠ other) :
    token.spells kind other = false := by
  obtain ⟨-, rfl⟩ := spells_iff.mp h
  simp [spells, hne]

theorem StartsExpression.spells_eq_false (h : token.StartsExpression) (hword : word ≠ "(") :
    token.spells .punctuation word = false := by
  rcases h with h | h | h | h | h | h
  · exact spells_eq_false_of_kind (by simp [h])
  · exact spells_eq_false_of_kind (by simp [h])
  · exact spells_eq_false_of_kind (by simp [h])
  · exact spells_eq_false_of_kind (by simp [h])
  · exact spells_eq_false_of_spells h hword.symm
  · exact spells_eq_false_of_kind (by simp [(spells_iff.mp h).1])

end Token

/-- How the tokens of a phrase begin. -/
def Phrase.Starts (tokens : List Token) : Phrase → Prop
  | .operand _ => ∃ first ∈ tokens.head?, first.StartsExpression
  | .links _ => ∀ first ∈ tokens.head?, first.kind = .operator
  | .operation _ => ∃ first ∈ tokens.head?, first.StartsExpression
  | .expression _ => ∃ first ∈ tokens.head?, first.StartsExpression
  | .further _ => ∀ first ∈ tokens.head?, first.spells .punctuation "," = true
  | .arguments _ => ∃ first ∈ tokens.head?, first.spells .punctuation "(" = true

theorem exists_mem_head_append {α : Type} {p : α → Prop} {left : List α} (right : List α)
    (h : ∃ first ∈ left.head?, p first) : ∃ first ∈ (left ++ right).head?, p first := by
  obtain ⟨first, hmem, hfirst⟩ := h
  refine ⟨first, ?_, hfirst⟩
  rw [List.head?_append, hmem]
  rfl

theorem Derives.starts {room : Nat} {phrase : Phrase} {tokens : List Token} (h : Derives room phrase tokens) :
    phrase.Starts tokens := by
  induction h with
  | number hkind => exact ⟨_, rfl, .inl hkind⟩
  | string hkind => exact ⟨_, rfl, .inr (.inl hkind)⟩
  | constant hkind => exact ⟨_, rfl, .inr (.inr (.inl hkind))⟩
  | reference hkind => exact ⟨_, rfl, .inr (.inr (.inr (.inl hkind)))⟩
  | group hopening => exact ⟨_, rfl, .inr (.inr (.inr (.inr (.inl hopening))))⟩
  | answered hfirst => exact ⟨_, rfl, .inr (.inr (.inr (.inr (.inr hfirst))))⟩
  | noLinks => simp [Phrase.Starts]
  | link hkind => simpa [Phrase.Starts] using hkind
  | operation _ _ _ ihFirst => exact exists_mem_head_append _ ihFirst
  | bare _ ih => exact ih
  | assign _ _ _ ihTarget => exact exists_mem_head_append _ ihTarget
  | noFurther => simp [Phrase.Starts]
  | further hcomma => simpa [Phrase.Starts] using hcomma
  | noArguments hopening => exact ⟨_, rfl, hopening⟩
  | arguments hopening => exact ⟨_, rfl, hopening⟩

namespace Rule

open Questionnaire.Parser (Takes)

variable {room budget : Nat} {inner : Rule Expr} {p q : Parser} {tokens rest names members : List Token}
  {opening closing : Token}

theorem memberOffer_eq_none {token : Token} (h : token.EndsOperand) : memberOffer token = none := by
  rw [memberOffer, if_neg (Bool.eq_false_iff.mp h)]

theorem complete_member {name : Token} (h : Member name tokens) (htakes : p.Takes tokens (1 + 0) q) :
    ∃ rule, memberOffer p.current = some rule ∧ rule p = .ok name q := by
  obtain ⟨hdot, hname⟩ := h
  obtain ⟨p₁, hcurrent, hcharged, htakes⟩ := htakes.uncharge
  obtain ⟨p₂, hpassed, hpassed'⟩ := htakes.uncons
  rw [memberOffer, hcurrent, hpassed.current_eq, if_pos hdot]
  refine ⟨_, rfl, charge_bind_eq_ok.mpr ⟨p₁, hcharged, ?_⟩⟩
  apply shift_bind_of_takes (by simp [(Token.spells_iff.mp hdot).1]) hpassed
  rw [current_bind, hpassed'.current_eq, if_pos hname]
  exact shift_bind_of_takes (by simp [hname]) hpassed' (pure_eq_ok.mpr ⟨rfl, rfl⟩)

theorem complete_members (h : Series Member names members) :
    Complete room budget members names.length Token.EndsOperand Rule.members names := by
  intro p q hroom htakes hends
  rw [← total_one] at htakes
  refine soundRounds_member.complete_repeatWhile (fun _ => True) ?_ (by simp) h p q hroom htakes
    ⟨trivial, memberOffer_eq_none hends⟩
  intro p name tokens q _ hmember htakes _
  exact complete_member hmember htakes

theorem complete_withMembers {container : Expr} (h : Series Member names members)
    (hreference : names = [] ∨ container.isReference = true) :
    Complete room budget members names.length Token.EndsOperand (withMembers container)
      (container.withMembers names) := by
  intro p q hroom htakes hends
  unfold withMembers
  split
  next =>
    exact bind_eq_ok.mpr ⟨names, q, complete_members h _ _ hroom htakes hends, pure_eq_ok.mpr ⟨rfl, rfl⟩⟩
  next hnot =>
    obtain rfl := hreference.resolve_right hnot
    cases h
    exact pure_eq_ok.mpr ⟨rfl, htakes.unique (Takes.refl p) |>.symm⟩

theorem complete_group {body : Expr} (hopening : opening.spells .punctuation "(" = true)
    (hclosing : closing.spells .punctuation ")" = true)
    (hbody : Complete room budget tokens body.charge Token.EndsExpression inner body) :
    Complete (room + 1) budget (opening :: (tokens ++ [closing])) body.charge (fun _ => True) (group inner)
      (body.withSpan ⟨opening, closing⟩) := by
  apply complete_bracketed
  intro p q hroom htakes _
  obtain ⟨p₁, hfirst, htakes⟩ := htakes.uncons
  obtain ⟨p₂, hmiddle, hlast⟩ := htakes.unsnoc
  have hends : p₂.current.EndsExpression := by
    rw [hlast.current_eq]
    exact Token.endsExpression_of_spells hclosing (by decide)
  rw [current_bind, hfirst.current_eq]
  apply shift_bind_of_takes (by simp [(Token.spells_iff.mp hopening).1]) hfirst
  refine bind_eq_ok.mpr ⟨body, p₂, hbody _ _ (hfirst.hasRoom hroom) hmiddle hends, ?_⟩
  exact (expectWord_bind_eq_ok (by decide)).mpr ⟨closing, q, hclosing, hlast, pure_eq_ok.mpr ⟨rfl, rfl⟩⟩

theorem complete_operand_group {body : Expr} (hopening : opening.spells .punctuation "(" = true)
    (hclosing : closing.spells .punctuation ")" = true)
    (hbody : Complete room budget tokens body.charge Token.EndsExpression inner body)
    (hmembers : Series Member names members) (hreference : names = [] ∨ body.isReference = true) :
    Complete (room + 1) budget (opening :: (tokens ++ closing :: members))
      ((body.withSpan ⟨opening, closing⟩).withMembers names).charge Token.EndsOperand (operand inner)
      ((body.withSpan ⟨opening, closing⟩).withMembers names) := by
  intro p q hroom htakes hends
  rw [Expr.charge_withMembers, Expr.charge_withSpan, List.append_cons, ← List.cons_append] at htakes
  obtain ⟨hkind, htext⟩ := Token.spells_iff.mp hopening
  obtain ⟨p₁, hgroup, hrest⟩ := htakes.split
  rw [operand, current_bind, hgroup.current_eq]
  simp only [hkind]
  rw [if_pos htext]
  refine bind_eq_ok.mpr ⟨_, p₁, complete_group hopening hclosing hbody _ _ hroom hgroup trivial, ?_⟩
  rw [← Expr.isReference_withSpan body ⟨opening, closing⟩] at hreference
  exact complete_withMembers hmembers hreference _ _ (hgroup.hasRoom hroom) hrest hends

theorem complete_operand_reference {name : Token} (hkind : name.kind = .identifier)
    (hmembers : Series Member names members) :
    Complete room budget (name :: members) (Expr.withMembers (.symbol name (.single name)) names).charge
      Token.EndsOperand (operand inner) (Expr.withMembers (.symbol name (.single name)) names) := by
  intro p q hroom htakes hends
  rw [Expr.charge_withMembers, Expr.charge, Nat.zero_add] at htakes
  obtain ⟨p₁, hfirst, hrest⟩ := htakes.uncons
  rw [operand, current_bind, hfirst.current_eq]
  simp only [hkind]
  apply shift_bind_of_takes (by simp [hkind]) hfirst
  exact complete_withMembers hmembers (.inr rfl) _ _ (hfirst.hasRoom hroom) hrest hends

theorem complete_operand_number {token : Token} {value : Double} (hkind : token.kind = .number)
    (hvalue : Double.read? token.text.toList = some value) :
    Complete room budget [token] 0 Token.EndsOperand (operand inner) (.number value (.single token)) := by
  intro p q _ htakes _
  obtain rfl := htakes.current_eq
  rw [operand, current_bind]
  simp only [hkind]
  exact (number_eq_ok hkind).mpr ⟨value, hvalue, rfl, htakes⟩

theorem complete_operand_string {token : Token} (hkind : token.kind = .string) :
    Complete room budget [token] 0 Token.EndsOperand (operand inner) (.string token.text (.single token)) := by
  intro p q _ htakes _
  rw [operand, current_bind, htakes.current_eq]
  simp only [hkind]
  exact shift_bind_of_takes (by simp [hkind]) htakes (pure_eq_ok.mpr ⟨rfl, rfl⟩)

theorem complete_operand_constant {token : Token} (hkind : token.kind = .valueKeyword) :
    Complete room budget [token] (constant token.text (.single token)).charge Token.EndsOperand (operand inner)
      (constant token.text (.single token)) := by
  intro p q _ htakes _
  rw [Expr.charge_constant] at htakes
  rw [operand, current_bind, htakes.current_eq]
  simp only [hkind]
  exact shift_bind_of_takes (by simp [hkind]) htakes (pure_eq_ok.mpr ⟨rfl, rfl⟩)

theorem complete_operand_answered {first filler question call : Token} {mode : AnswerMode} {answers : List Expr}
    (hfirst : first.spells .keyword "answer" = true) (hfiller : filler.spells .keyword "for" = true)
    (hquestion : question.kind = .identifier) (hcall : call.kind = .callKeyword)
    (hmode : AnswerMode.ofKeyword? call.text = some mode)
    (hanswers : Complete room budget tokens (Expr.charges answers) (fun _ => True) (arguments inner) answers) :
    Complete room budget (first :: filler :: question :: call :: tokens) (Expr.charges answers) Token.EndsOperand
      (operand inner) (.answered question mode answers (.over first (filler :: question :: call :: tokens))) := by
  intro p q hroom htakes _
  obtain ⟨hkind, htext⟩ := Token.spells_iff.mp hfirst
  obtain ⟨p₁, htakes₁, hrest⟩ := htakes.uncons
  obtain ⟨p₂, htakes₂, hrest⟩ := hrest.uncons
  obtain ⟨p₃, htakes₃, hrest⟩ := hrest.uncons
  obtain ⟨p₄, htakes₄, hrest⟩ := hrest.uncons
  have hroom₄ := htakes₄.hasRoom (htakes₃.hasRoom (htakes₂.hasRoom (htakes₁.hasRoom hroom)))
  rw [operand, current_bind, htakes.current_eq]
  simp only [hkind]
  rw [if_pos htext]
  refine (expectWord_bind_eq_ok (by decide)).mpr ⟨first, p₁, hfirst, htakes₁, ?_⟩
  refine (expectWord_bind_eq_ok (by decide)).mpr ⟨filler, p₂, hfiller, htakes₂, ?_⟩
  refine (expect_bind_eq_ok (by decide)).mpr ⟨question, p₃, hquestion, htakes₃, ?_⟩
  refine bind_eq_ok.mpr ⟨mode, p₄, answerMode_eq_ok.mpr ⟨call, hcall, hmode, htakes₄⟩, ?_⟩
  refine bind_eq_ok.mpr ⟨answers, q, hanswers _ _ hroom₄ hrest trivial, ?_⟩
  rw [spanSince_bind, htakes.span_eq]
  exact pure_eq_ok.mpr ⟨rfl, rfl⟩

theorem complete_noArguments (hopening : opening.spells .punctuation "(" = true)
    (hclosing : closing.spells .punctuation ")" = true) :
    Complete (room + 1) budget [opening, closing] 0 (fun _ => True) (arguments inner) [] := by
  apply complete_bracketed
  intro p q _ htakes _
  obtain ⟨p₁, hfirst, hlast⟩ := htakes.uncons
  refine (expectWord_bind_eq_ok (by decide)).mpr ⟨opening, p₁, hopening, hfirst, ?_⟩
  rw [current_bind, hlast.current_eq]
  dsimp only
  rw [if_pos hclosing]
  refine bind_eq_ok.mpr ⟨[], p₁, pure_eq_ok.mpr ⟨rfl, rfl⟩, ?_⟩
  exact (expectWord_bind_eq_ok (by decide)).mpr ⟨closing, q, hclosing, hlast, pure_eq_ok.mpr ⟨rfl, rfl⟩⟩

theorem complete_arguments {answer : Expr} {answers : List Expr}
    (hinner : Sound room budget (fun expr => Derives room (.expression expr)) Expr.charge inner)
    (hopening : opening.spells .punctuation "(" = true) (hclosing : closing.spells .punctuation ")" = true)
    (hstart : ∃ first ∈ tokens.head?, first.StartsExpression)
    (hanswer : Complete room budget tokens answer.charge Token.EndsExpression inner answer)
    (hcomma : ∀ first ∈ rest.head?, first.spells .punctuation "," = true)
    (hanswers : ∀ p q, p.HasRoom room budget → p.Takes rest (Expr.charges answers) q → q.current.EndsExpression →
      q.current.spells .punctuation "," = false → Loops (furtherOffer inner) p answers q) :
    Complete (room + 1) budget (opening :: (tokens ++ (rest ++ [closing]))) (Expr.charges (answer :: answers))
      (fun _ => True) (arguments inner) (answer :: answers) := by
  apply complete_bracketed
  intro p q hroom htakes _
  obtain ⟨p₁, hfirst, htakes⟩ := htakes.uncons
  obtain ⟨p₂, htokens, htakes⟩ := Takes.split htakes
  obtain ⟨p₃, hrest, hlast⟩ := htakes.unsnoc
  have hroom₁ := hfirst.hasRoom hroom
  have hroom₂ := htokens.hasRoom hroom₁
  have hlastEnds : p₃.current.EndsExpression := by
    rw [hlast.current_eq]
    exact Token.endsExpression_of_spells hclosing (by decide)
  have hlastComma : p₃.current.spells .punctuation "," = false := by
    rw [hlast.current_eq]
    exact Token.spells_eq_false_of_spells hclosing (by decide)
  have hends : p₂.current.EndsExpression :=
    hrest.current_of_head (fun first hhead => Token.endsExpression_of_spells (hcomma first hhead) (by decide))
      hlastEnds
  obtain ⟨first, hhead, hstart⟩ := hstart
  refine (expectWord_bind_eq_ok (by decide)).mpr ⟨opening, p₁, hopening, hfirst, ?_⟩
  rw [current_bind]
  dsimp only
  rw [htokens.current_of_mem_head hhead, if_neg (by rw [hstart.spells_eq_false (by decide)]; decide)]
  refine bind_eq_ok.mpr ⟨answer, p₂, hanswer _ _ hroom₁ htokens hends, ?_⟩
  refine bind_eq_ok.mpr ⟨answers, p₃, ?_, ?_⟩
  · exact ((soundRounds_further hinner).repeatWhile_eq_ok hroom₂).mpr
      (hanswers _ _ hroom₂ hrest hlastEnds hlastComma)
  refine bind_eq_ok.mpr ⟨answer :: answers, p₃, pure_eq_ok.mpr ⟨rfl, rfl⟩, ?_⟩
  exact (expectWord_bind_eq_ok (by decide)).mpr ⟨closing, q, hclosing, hlast, pure_eq_ok.mpr ⟨rfl, rfl⟩⟩

theorem furtherOffer_eq_none {token : Token} (h : token.spells .punctuation "," = false) :
    furtherOffer inner token = none := by
  rw [furtherOffer, if_neg (by simp [h])]

theorem loops_further {comma : Token} {answer : Expr} {answers : List Expr}
    (hcomma : comma.spells .punctuation "," = true)
    (hanswer : Complete room budget tokens answer.charge Token.EndsExpression inner answer)
    (hcommas : ∀ first ∈ rest.head?, first.spells .punctuation "," = true)
    (hanswers : ∀ p q, p.HasRoom room budget → p.Takes rest (Expr.charges answers) q → q.current.EndsExpression →
      q.current.spells .punctuation "," = false → Loops (furtherOffer inner) p answers q)
    (hroom : p.HasRoom room budget) (htakes : p.Takes (comma :: (tokens ++ rest)) (Expr.charges (answer :: answers)) q)
    (hends : q.current.EndsExpression) (hlast : q.current.spells .punctuation "," = false) :
    Loops (furtherOffer inner) p (answer :: answers) q := by
  obtain ⟨p₁, hfirst, htakes⟩ := htakes.uncons
  obtain ⟨p₂, htokens, hrest⟩ := Takes.split htakes
  have hroom₁ := hfirst.hasRoom hroom
  have hends₂ : p₂.current.EndsExpression :=
    hrest.current_of_head (fun first hhead => Token.endsExpression_of_spells (hcommas first hhead) (by decide)) hends
  refine .round (by rw [furtherOffer, hfirst.current_eq, if_pos hcomma]) ?_
    (hanswers _ _ (htokens.hasRoom hroom₁) hrest hends hlast)
  exact shift_bind_of_takes (by simp [(Token.spells_iff.mp hcomma).1]) hfirst
    (hanswer _ _ hroom₁ htokens hends₂)

theorem linkOffer_eq_none {token : Token} (h : token.EndsOperation) : linkOffer inner token = none := by
  unfold linkOffer
  split
  next hkind => rw [h.2 hkind, Option.map_none]
  next => rfl

theorem loops_link {token : Token} {op : BinaryOp} {expr : Expr} {links : List (BinaryOp × Expr)}
    (hkind : token.kind = .operator) (hop : BinaryOp.ofLexeme? token.text = some op)
    (hexpr : Complete room budget tokens expr.charge Token.EndsOperand (operand inner) expr)
    (hoperators : ∀ first ∈ rest.head?, first.kind = .operator)
    (hlinks : ∀ p q, p.HasRoom room budget → p.Takes rest (Chain.charges links) q → q.current.EndsOperation →
      Loops (linkOffer inner) p links q)
    (hroom : p.HasRoom room budget)
    (htakes : p.Takes (token :: (tokens ++ rest)) (Chain.charges ((op, expr) :: links)) q)
    (hends : q.current.EndsOperation) : Loops (linkOffer inner) p ((op, expr) :: links) q := by
  rw [Chain.charges, total, Nat.add_assoc] at htakes
  obtain ⟨p₁, hcurrent, hcharged, htakes⟩ := Takes.uncharge htakes
  obtain ⟨p₂, hfirst, htakes⟩ := htakes.uncons
  obtain ⟨p₃, htokens, hrest⟩ := Takes.split htakes
  have hroom₂ := hfirst.hasRoom (hcharged.hasRoom hroom)
  have hends₃ : p₃.current.EndsOperand :=
    hrest.current_of_head (fun first hhead => Token.spells_eq_false_of_kind (by rw [hoperators first hhead]; decide))
      hends.1
  refine .round (by rw [linkOffer, hcurrent, hfirst.current_eq, if_pos hkind, hop]; rfl) ?_
    (hlinks _ _ (htokens.hasRoom hroom₂) hrest hends)
  refine charge_bind_eq_ok.mpr ⟨p₁, hcharged, ?_⟩
  apply shift_bind_of_takes (by simp [hkind]) hfirst
  exact bind_eq_ok.mpr ⟨expr, p₃, hexpr _ _ hroom₂ htokens hends₃, pure_eq_ok.mpr ⟨rfl, rfl⟩⟩

theorem complete_operation {chain : Chain} (hinner : SoundWithin room budget inner) (hordered : chain.Ordered)
    (hfirst : Complete room budget tokens chain.first.charge Token.EndsOperand (operand inner) chain.first)
    (hoperators : ∀ first ∈ rest.head?, first.kind = .operator)
    (hlinks : ∀ p q, p.HasRoom room budget → p.Takes rest (Chain.charges chain.links) q → q.current.EndsOperation →
      Loops (linkOffer inner) p chain.links q) :
    Complete room budget (tokens ++ rest) chain.expr.charge Token.EndsOperation (operation inner) chain.expr := by
  intro p q hroom htakes hends
  rw [Chain.charge_expr] at htakes
  obtain ⟨p₁, htokens, hrest⟩ := htakes.split
  have hroom₁ := htokens.hasRoom hroom
  have hends₁ : p₁.current.EndsOperand :=
    hrest.current_of_head (fun first hhead => Token.spells_eq_false_of_kind (by rw [hoperators first hhead]; decide))
      hends.1
  refine bind_eq_ok.mpr ⟨chain.first, p₁, hfirst _ _ hroom htokens hends₁, ?_⟩
  refine bind_eq_ok.mpr ⟨chain.links, q, ?_, pure_eq_ok.mpr ⟨by rw [hordered.ofLinks_eq], rfl⟩⟩
  exact ((soundRounds_link hinner).repeatWhile_eq_ok hroom₁).mpr (hlinks _ _ hroom₁ hrest hends)

theorem complete_bare {expr : Expr}
    (hexpr : Complete room budget tokens expr.charge Token.EndsOperation (operation inner) expr) :
    Complete room budget tokens expr.charge Token.EndsExpression (assignment inner) expr := by
  intro p q hroom htakes hends
  refine bind_eq_ok.mpr ⟨expr, q, hexpr _ _ hroom htakes hends.operation, ?_⟩
  rw [current_bind, Token.spells_eq_false_of_kind hends.2, if_neg (by decide)]
  exact pure_eq_ok.mpr ⟨rfl, rfl⟩

theorem complete_assign {target equals : Token} {span : Span} {value : Expr}
    (htarget : Complete room budget tokens 0 Token.EndsOperation (operation inner) (.symbol target span))
    (hequals : equals.spells .operator "=" = true)
    (hvalue : Complete room budget rest value.charge Token.EndsOperation (operation inner) value) :
    Complete room budget (tokens ++ equals :: rest) value.charge Token.EndsExpression (assignment inner)
      (.assign target value ⟨span.first, value.span.last⟩) := by
  intro p q hroom htakes hends
  rw [← Nat.zero_add value.charge] at htakes
  obtain ⟨p₁, htokens, htakes⟩ := htakes.split
  obtain ⟨p₂, hequalsTaken, hrest⟩ := htakes.uncons
  obtain ⟨hkind, htext⟩ := Token.spells_iff.mp hequals
  have hends₁ : p₁.current.EndsOperation := by
    rw [hequalsTaken.current_eq]
    refine ⟨Token.spells_eq_false_of_kind (by simp [hkind]), fun _ => ?_⟩
    rw [htext]
    decide
  refine bind_eq_ok.mpr ⟨_, p₁, htarget _ _ hroom htokens hends₁, ?_⟩
  rw [current_bind, hequalsTaken.current_eq, if_pos hequals]
  apply shift_bind_of_takes (by simp [hkind]) hequalsTaken
  have hroom₂ := hequalsTaken.hasRoom (htokens.hasRoom hroom)
  exact bind_eq_ok.mpr ⟨value, q, hvalue _ _ hroom₂ hrest hends.operation, pure_eq_ok.mpr ⟨rfl, rfl⟩⟩

/-- What the rule for a phrase does with the tokens of a derivation. -/
def CompleteFor (budget room : Nat) (tokens : List Token) : Phrase → Prop
  | .operand expr => Complete room budget tokens expr.charge Token.EndsOperand (operand (expression room)) expr
  | .links links => ∀ p q, p.HasRoom room budget → p.Takes tokens (Chain.charges links) q → q.current.EndsOperation →
      Loops (linkOffer (expression room)) p links q
  | .operation expr => Complete room budget tokens expr.charge Token.EndsOperation (operation (expression room)) expr
  | .expression expr => Complete room budget tokens expr.charge Token.EndsExpression (expression (room + 1)) expr
  | .further answers => ∀ p q, p.HasRoom room budget → p.Takes tokens (Expr.charges answers) q →
      q.current.EndsExpression → q.current.spells .punctuation "," = false →
      Loops (furtherOffer (expression (room + 1))) p answers q
  | .arguments answers =>
      Complete room budget tokens (Expr.charges answers) (fun _ => True) (arguments (expression room)) answers

end Rule

open Rule in
/-- Every derivation is found. -/
theorem Derives.complete {room : Nat} {phrase : Phrase} {tokens : List Token} (budget : Nat)
    (h : Derives room phrase tokens) : CompleteFor budget room tokens phrase := by
  induction h with
  | number hkind hvalue => exact complete_operand_number hkind hvalue
  | string hkind => exact complete_operand_string hkind
  | constant hkind => exact complete_operand_constant hkind
  | reference hkind hmembers => exact complete_operand_reference hkind hmembers
  | group hopening _ hclosing hmembers hreference ih =>
      exact complete_operand_group hopening hclosing ih hmembers hreference
  | answered hfirst hfiller hquestion hcall hmode _ ih =>
      exact complete_operand_answered hfirst hfiller hquestion hcall hmode ih
  | noLinks =>
      intro p q _ htakes hends
      obtain rfl := htakes.unique (Parser.Takes.refl p)
      exact .done (linkOffer_eq_none hends)
  | link hkind hop _ hlinks ihExpr ihLinks =>
      intro p q hroom htakes hends
      exact loops_link hkind hop ihExpr hlinks.starts ihLinks hroom htakes hends
  | @operation room _ _ _ hordered _ hlinks ihFirst ihLinks =>
      exact complete_operation (soundWithin_expression room budget) hordered ihFirst hlinks.starts ihLinks
  | bare _ ih => exact complete_bare ih
  | assign _ hequals _ ihTarget ihValue => exact complete_assign ihTarget hequals ihValue
  | noFurther =>
      intro p q _ htakes _ hlast
      obtain rfl := htakes.unique (Parser.Takes.refl p)
      exact .done (furtherOffer_eq_none hlast)
  | further hcomma _ hanswers ihAnswer ihAnswers =>
      intro p q hroom htakes hends hlast
      exact loops_further hcomma ihAnswer hanswers.starts ihAnswers hroom htakes hends hlast
  | noArguments hopening hclosing => exact complete_noArguments hopening hclosing
  | @arguments room _ _ _ _ _ _ hopening hanswer hanswers hclosing ihAnswer ihAnswers =>
      exact complete_arguments (sound_expression room budget) hopening hclosing hanswer.starts ihAnswer
        hanswers.starts ihAnswers

end Questionnaire
