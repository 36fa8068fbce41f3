import Questionnaire.Proofs.Grammar.Recovery

/-! No rule for logic takes a token that it has to turn down later. Wherever a rule for an expression or a statement
stops, a name, a closing mark or the like is enough to complete what it was to read. -/

namespace Questionnaire

/-- A name to go on with. -/
def Token.anyName : Token := .standIn .identifier "x"

def Expr.anyName : Expr := .symbol .anyName (.single .anyName)

namespace Derives

variable {room : Nat}

theorem operand_anyName : Derives room (.operand Expr.anyName) [Token.anyName] := .reference rfl .nil

/-- The operands of an operation, in the order they are read. -/
theorem operation_ofLinks {first : Expr} {links : List (BinaryOp × Expr)} {tokens rest : List Token}
    (hfirst : Derives room (.operand first) tokens) (hlinks : Series (Linked room) links rest) :
    Derives room (.operation (Chain.ofLinks first links).expr) (tokens ++ rest) := by
  refine .operation (Chain.ordered_ofLinks first links) ?_ ?_
  · rw [Chain.first_ofLinks]
    exact hfirst
  · rw [Chain.links_ofLinks]
    exact .links_of_series hlinks

theorem expression_anyName : Derives room (.expression Expr.anyName) [Token.anyName] :=
  .bare (operation_of_operand operand_anyName)

end Derives

theorem Chain.charge_ofLinks (first : Expr) (links : List (BinaryOp × Expr)) :
    (ofLinks first links).expr.charge = first.charge + charges links := by
  rw [charge_expr, first_ofLinks, links_ofLinks]

namespace Rule

variable {α : Type} {room budget : Nat} {p : Parser}

/-- The rule for what stands between brackets, if one more may be opened. -/
def ViableWithin (room budget : Nat) : Prop :=
  ∀ below, room = below + 1 →
    Viable below budget (fun expr => Derives below (.expression expr)) Expr.charge (expression room)

theorem viableRounds_further {inner : Rule Expr}
    (h : Viable room budget (fun expr => Derives room (.expression expr)) Expr.charge inner) :
    ViableRounds room budget (Following room) Expr.charge (furtherOffer inner) := by
  intro p rule hready hoffer
  unfold furtherOffer at hoffer
  split at hoffer
  next hcomma =>
    cases hoffer
    refine recovers_shift_bind hready.isSealed (by simp [(Token.spells_iff.mp hcomma).1]) fun p₁ hpassed => ?_
    refine (h p₁ (hready.takes_free hpassed)).mono ?_
    rintro taken rest ⟨answer, hanswer, hle⟩
    exact ⟨rest, answer, .mk hcomma hanswer, Nat.le_succ_of_le hle⟩
  next => cases hoffer

theorem Following.charge_le {answer : Expr} {tokens : List Token} (h : Following room answer tokens) :
    answer.charge ≤ tokens.length := by
  cases h with
  | mk _ hanswer => exact Nat.le_succ_of_le hanswer.charge_le

theorem viable_arguments (h : ViableWithin room budget) :
    Viable room budget (fun answers => Derives room (.arguments answers)) Expr.charges
      (arguments (expression room)) := by
  intro p hready
  refine recovers_bracketed hready fun below p' hbelow hready' _ => ?_
  have hinner := h below hbelow
  subst hbelow
  have hsound := sound_expression below budget
  have hfurther := (viableRounds_further hinner).viable_repeatWhile (soundRounds_further hsound)
    fun _ _ => Following.charge_le
  let closing := Token.standIn .punctuation ")"
  have hclosing : closing.spells .punctuation ")" = true := Token.spells_standIn _ _
  refine recovers_expectWord_bind hready'.isSealed (by decide) ?_ fun opening p₁ hopening hfirst => ?_
  · exact exists_completes _ (.noArguments (Token.spells_standIn .punctuation "(") hclosing) rfl (Nat.zero_le _)
  have hready₁ := hready'.takes hfirst (Nat.le_refl _) (Nat.zero_le _)
  refine recovers_current_bind ?_
  dsimp only
  split
  · refine recovers_pure_bind (recovers_expectWord_bind hready₁.isSealed (by decide) ?_ fun _ _ _ _ => recovers_pure)
    exact exists_completes [closing] (.noArguments hopening hclosing) rfl (Nat.zero_le _)
  refine hinner.recovers_bind hsound hready₁ ?_ fun answer tokens p₂ hanswer htokens => ?_
  · rintro taken rest ⟨answer, hanswer, hle⟩
    refine exists_completes (rest ++ [closing]) (.arguments hopening hanswer .noFurther hclosing) (by simp) ?_
    simp only [Expr.charges, List.length_cons]
    omega
  have hle : answer.charge ≤ tokens.length := hanswer.charge_le
  have hready₂ := hready₁.takes htokens (Nat.zero_le _) hle
  refine hfurther.recovers_bind (soundRounds_further hsound).sound_repeatWhile hready₂ ?_
    fun others rest p₃ hothers hrest => ?_
  · rintro taken rest ⟨others, hothers, hle'⟩
    refine exists_completes (rest ++ [closing])
      (.arguments hopening hanswer (.further_of_series hothers) hclosing) (by simp) ?_
    rw [← Expr.charges_eq_total] at hle'
    simp only [Expr.charges, List.length_cons, List.length_append]
    omega
  have hothers' := Derives.further_of_series hothers
  have hsealed₃ := hready₂.isSealed.takes hrest
  refine recovers_pure_bind (recovers_expectWord_bind hsealed₃ (by decide) ?_ fun _ _ _ _ => recovers_pure)
  refine exists_completes [closing] (.arguments hopening hanswer hothers' hclosing) (by simp) ?_
  have hle' : Expr.charges others ≤ rest.length := hothers'.charge_le
  simp only [Expr.charges, List.length_cons, List.length_append]
  omega

theorem viableRounds_member : ViableRounds room budget Member (fun _ => 1) memberOffer := by
  intro p rule hready hoffer
  unfold memberOffer at hoffer
  split at hoffer
  next hdot =>
    cases hoffer
    refine recovers_charge_bind hready fun p₁ hcurrent hcharged => ?_
    rw [← hcurrent] at hdot
    have hsealed₁ := hready.isSealed.takes hcharged
    refine recovers_shift_bind hsealed₁ (by simp [(Token.spells_iff.mp hdot).1]) fun p₂ hpassed => ?_
    refine recovers_current_bind ?_
    split
    next hname =>
      exact recovers_shift_bind (hsealed₁.takes hpassed) (by simp [hname]) fun _ _ => recovers_pure
    next =>
      exact recovers_refuse _ (exists_completes [.anyName] (.mk hdot rfl) rfl (Nat.le_refl _))
  next => cases hoffer

theorem recovers_withMembers {container : Expr} (hready : p.Ready room budget 0) :
    Recovers (withMembers container) p fun taken rest => container.isReference = true ∧
      Completes (Series Member) List.length taken rest := by
  have hmembers : Viable room budget (Series Member) (total fun _ => 1) members :=
    viableRounds_member.viable_repeatWhile soundRounds_member fun _ _ hmember => by cases hmember; simp
  unfold withMembers
  split
  next hreference =>
    refine recovers_bind_pure ((hmembers p hready).mono ?_)
    rintro taken rest ⟨names, hnames, hle⟩
    rw [total_one] at hle
    exact ⟨rest, hreference, names, hnames, hle⟩
  next => exact recovers_pure

theorem recovers_group (h : ViableWithin room budget) (hready : p.Ready room budget 0)
    (hcurrent : p.current.spells .punctuation "(" = true) :
    Recovers (group (expression room)) p
      (Completes (fun expr => Derives room (.operand expr)) Expr.charge) := by
  refine recovers_bracketed hready fun below p' hbelow hready' hsame => ?_
  have hinner := h below hbelow
  subst hbelow
  rw [← hsame] at hcurrent
  let closing := Token.standIn .punctuation ")"
  have hclosing : closing.spells .punctuation ")" = true := Token.spells_standIn _ _
  have hgroup {body : Expr} {tokens : List Token} (hbody : Derives below (.expression body) tokens) :
      Derives (below + 1) (.operand (body.withSpan ⟨p'.current, closing⟩)) (p'.current :: (tokens ++ [closing])) :=
    .group hcurrent hbody hclosing .nil (.inl rfl)
  refine recovers_current_bind ?_
  refine recovers_shift_bind hready'.isSealed (by simp [(Token.spells_iff.mp hcurrent).1]) fun p₁ hfirst => ?_
  have hready₁ := hready'.takes hfirst (Nat.le_refl _) (Nat.zero_le _)
  refine hinner.recovers_bind (sound_expression below budget) hready₁ ?_ fun body tokens p₂ hbody htokens => ?_
  · rintro taken rest ⟨body, hbody, hle⟩
    refine exists_completes (rest ++ [closing]) (hgroup hbody) (by simp) ?_
    rw [Expr.charge_withSpan]
    exact Nat.le_succ_of_le hle
  · have hsealed₂ := hready₁.isSealed.takes htokens
    refine recovers_expectWord_bind hsealed₂ (by decide) ?_ fun _ _ _ _ => recovers_pure
    refine exists_completes [closing] (hgroup hbody) (by simp) ?_
    rw [Expr.charge_withSpan, List.append_nil]
    exact Nat.le_succ_of_le hbody.charge_le

theorem recovers_number {P : List Token → List Token → Prop} (hready : p.Ready room budget 0)
    (hkind : p.current.kind = .number) : Recovers number p P := by
  have hread := hready.numbers p.current (List.mem_cons_self ..) hkind
  refine recovers_current_bind (recovers_shift_bind hready.isSealed (by simp [hkind]) fun _ _ => ?_)
  cases hvalue : Double.read? p.current.text.toList with
  | none =>
      rw [hvalue] at hread
      cases hread
  | some value => exact recovers_pure

theorem recovers_answerMode {P : List Token → List Token → Prop} (hsealed : p.Sealed) (h : ∃ rest, P [] rest) :
    Recovers answerMode p P := by
  refine recovers_current_bind ?_
  split
  · split
    next hkind => exact recovers_shift_bind hsealed (by simp [hkind]) fun _ _ => recovers_pure
    next => exact recovers_refuseUnexpected h
  · exact recovers_refuseUnexpected h

theorem viable_answered (h : ViableWithin room budget) :
    Viable room budget (fun expr => Derives room (.operand expr)) Expr.charge (answered (expression room)) := by
  intro p hready
  have hroom := hready.room
  obtain ⟨below, rfl⟩ : ∃ below, room = below + 1 := ⟨room - 1, by omega⟩
  let mode := Token.standIn .callKeyword AnswerMode.has.keyword
  let opening := Token.standIn .punctuation "("
  let closing := Token.standIn .punctuation ")"
  have hname : Token.anyName.kind = .identifier := rfl
  have hcall : mode.kind = .callKeyword := rfl
  have hmode : AnswerMode.ofKeyword? mode.text = some .has := AnswerMode.ofKeyword?_keyword .has
  have hanswers : Derives (below + 1) (.arguments []) [opening, closing] :=
    .noArguments (Token.spells_standIn _ _) (Token.spells_standIn _ _)
  have hfiller := Token.spells_standIn .keyword "for"
  refine recovers_expectWord_bind hready.isSealed (by decide) ?_ fun first p₁ hfirst htakes₁ => ?_
  · exact exists_completes _ (.answered (Token.spells_standIn .keyword "answer") hfiller hname hcall hmode hanswers) rfl
      (Nat.zero_le _)
  have hready₁ := hready.takes_free htakes₁
  refine recovers_expectWord_bind hready₁.isSealed (by decide) ?_ fun filler p₂ hfiller htakes₂ => ?_
  · exact exists_completes _ (.answered hfirst hfiller hname hcall hmode hanswers) rfl (Nat.zero_le _)
  have hready₂ := hready₁.takes_free htakes₂
  refine recovers_expect_bind hready₂.isSealed (by decide) ?_ fun question p₃ hquestion htakes₃ => ?_
  · exact exists_completes _ (.answered hfirst hfiller hname hcall hmode hanswers) rfl (Nat.zero_le _)
  have hready₃ := hready₂.takes_free htakes₃
  refine recovers_bind (recovers_answerMode hready₃.isSealed ?_) fun found p₄ hfound => ?_
  · exact exists_completes _ (.answered hfirst hfiller hquestion hcall hmode hanswers) rfl (Nat.zero_le _)
  obtain ⟨call, hcall, hmode, htakes₄⟩ := answerMode_eq_ok.mp hfound
  have hready₄ := hready₃.takes_free htakes₄
  refine ⟨[call], 0, htakes₄, ?_⟩
  have hwithin := soundWithin_expression (below + 1) budget
  refine (viable_arguments h).recovers_bind (sound_arguments hwithin) hready₄ ?_ fun _ _ _ _ _ => recovers_spanSince
  rintro taken rest ⟨answers, hanswers, hle⟩
  refine exists_completes rest (.answered hfirst hfiller hquestion hcall hmode hanswers) rfl ?_
  simp only [Expr.charge, List.length_cons, List.length_append, List.length_nil]
  omega

theorem viable_operand (h : ViableWithin room budget) :
    Viable room budget (fun expr => Derives room (.operand expr)) Expr.charge (operand (expression room)) := by
  intro p hready
  have hname : ∃ rest, Completes (fun expr => Derives room (.operand expr)) Expr.charge [] rest :=
    exists_completes _ .operand_anyName rfl (Nat.zero_le _)
  refine recovers_current_bind ?_
  cases hkind : p.current.kind with
  | punctuation =>
      dsimp only
      split
      next htext =>
        have hcurrent := Token.spells_iff.mpr ⟨hkind, htext⟩
        refine recovers_bind (recovers_group h hready hcurrent) fun container p₁ hgroup => ?_
        obtain ⟨below, opening, closing, body, tokens, rfl, hopening, hclosing, hbody, rfl, htakes⟩ :=
          group_of_eq_ok (soundWithin_expression room budget) hready.hasRoom hcurrent hgroup
        have hle : body.charge ≤ tokens.length := hbody.charge_le
        have hready₁ := hready.takes htakes (Nat.zero_le _) (by simp; omega)
        refine ⟨_, _, htakes, (recovers_withMembers hready₁).mono ?_⟩
        rintro taken rest ⟨hreference, names, hnames, hlength⟩
        rw [Expr.isReference_withSpan] at hreference
        refine exists_completes rest (.group hopening hbody hclosing hnames (.inr hreference)) (by simp) ?_
        rw [Expr.charge_withMembers, Expr.charge_withSpan]
        simp only [List.length_cons, List.length_append]
        omega
      next => exact recovers_refuseUnexpected hname
  | identifier =>
      refine recovers_shift_bind hready.isSealed (by simp [hkind]) fun p₁ htakes => ?_
      have hready₁ := hready.takes_free htakes
      refine (recovers_withMembers hready₁).mono ?_
      rintro taken rest ⟨-, names, hnames, hlength⟩
      refine exists_completes rest (.reference hkind hnames) rfl ?_
      rw [Expr.charge_withMembers, Expr.charge, List.length_cons]
      omega
  | number => exact recovers_number hready hkind
  | string => exact recovers_shift_bind hready.isSealed (by simp [hkind]) fun _ _ => recovers_pure
  | valueKeyword => exact recovers_shift_bind hready.isSealed (by simp [hkind]) fun _ _ => recovers_pure
  | keyword =>
      dsimp only
      split
      · exact viable_answered h p hready
      · exact recovers_refuseUnexpected hname
  | _ => exact recovers_refuseUnexpected hname

theorem Linked.charge_le {link : BinaryOp × Expr} {tokens : List Token} (h : Linked room link tokens) :
    1 + link.2.charge ≤ tokens.length := by
  cases h with
  | mk _ _ hexpr =>
      have hle := hexpr.charge_le
      simp only [Phrase.charge] at hle
      rw [List.length_cons]
      dsimp only
      omega

theorem viableRounds_link (h : ViableWithin room budget) :
    ViableRounds room budget (Linked room) (fun link => 1 + link.2.charge) (linkOffer (expression room)) := by
  intro p rule hready hoffer
  unfold linkOffer at hoffer
  split at hoffer
  next hkind =>
    obtain ⟨op, hop, rfl⟩ := Option.map_eq_some_iff.mp hoffer
    refine recovers_charge_bind hready fun p₁ hcurrent hcharged => ?_
    rw [← hcurrent] at hkind hop
    have hsealed₁ := hready.isSealed.takes hcharged
    refine recovers_shift_bind hsealed₁ (by simp [hkind]) fun p₂ hpassed => ?_
    have hready₂ := hready.takes (hcharged.trans hpassed) (Nat.zero_le _) (Nat.le_refl _)
    refine recovers_bind_pure ((viable_operand h p₂ hready₂).mono ?_)
    rintro taken rest ⟨expr, hexpr, hle⟩
    refine exists_completes rest (.mk hkind hop hexpr) rfl ?_
    rw [List.length_cons]
    dsimp only
    omega
  next => cases hoffer

theorem viable_operation (h : ViableWithin room budget) :
    Viable room budget (fun expr => Derives room (.operation expr)) Expr.charge (operation (expression room)) := by
  intro p hready
  have hwithin := soundWithin_expression room budget
  have hlinks : Viable room budget (Series (Linked room)) Chain.charges (links (expression room)) :=
    (viableRounds_link h).viable_repeatWhile (soundRounds_link hwithin) fun _ _ => Linked.charge_le
  refine (viable_operand h).recovers_bind (sound_operand hwithin) hready ?_ fun first tokens p₁ hfirst htokens => ?_
  · rintro taken rest ⟨first, hfirst, hle⟩
    exact exists_completes rest (.operation_of_operand hfirst) rfl hle
  · have hle : first.charge ≤ tokens.length := hfirst.charge_le
    have hready₁ := hready.takes htokens (Nat.zero_le _) hle
    refine recovers_bind_pure ((hlinks p₁ hready₁).mono ?_)
    rintro taken rest ⟨links, hlinks, hle'⟩
    refine exists_completes rest (.operation_ofLinks hfirst hlinks) (by simp) ?_
    rw [Chain.charge_ofLinks, List.length_append]
    omega

theorem viable_assignment (h : ViableWithin room budget) :
    Viable room budget (fun expr => Derives room (.expression expr)) Expr.charge
      (assignment (expression room)) := by
  intro p hready
  have hsound := sound_operation (soundWithin_expression room budget)
  refine (viable_operation h).recovers_bind hsound hready ?_ fun left tokens p₁ hleft htokens => ?_
  · rintro taken rest ⟨left, hleft, hle⟩
    exact exists_completes rest (.bare hleft) rfl hle
  have hle : left.charge ≤ tokens.length := hleft.charge_le
  have hready₁ := hready.takes htokens (Nat.zero_le _) hle
  -- what cannot be given a value is an expression all the same, as long as the equals sign is not taken
  have hbare : ∃ rest, Completes (fun expr => Derives room (.expression expr)) Expr.charge (tokens ++ []) rest :=
    exists_completes [] (.bare hleft) (by simp) (by simpa using hle)
  refine recovers_current_bind ?_
  split
  next hequals =>
    cases left with
    | symbol target span =>
        refine recovers_shift_bind hready₁.isSealed (by simp [(Token.spells_iff.mp hequals).1]) fun p₂ hpassed => ?_
        have hready₂ := hready₁.takes_free hpassed
        refine recovers_bind_pure ((viable_operation h p₂ hready₂).mono ?_)
        rintro taken rest ⟨value, hvalue, hle'⟩
        refine exists_completes rest (.assign hleft hequals hvalue) (by simp) ?_
        simp only [Expr.charge, List.length_append, List.length_cons]
        omega
    | _ => exact recovers_refuse _ hbare
  next => exact recovers_pure

theorem viable_expression (room budget : Nat) :
    Viable room budget (fun expr => Derives room (.expression expr)) Expr.charge (expression (room + 1)) := by
  induction room with
  | zero => exact viable_assignment fun below h => by omega
  | succ room ih =>
      refine viable_assignment fun below h => ?_
      obtain rfl := Nat.succ.inj h
      exact ih

theorem viableWithin (room budget : Nat) : ViableWithin room budget := by
  intro below h
  subst h
  exact viable_expression below budget

end Rule

/-- A block to go on with. -/
def Token.emptyBlock : List Token := [.standIn .punctuation "\x7b", .standIn .punctuation "\x7d"]

theorem Simple.exists_of_derives {room budget : Nat} {expr : Expr} {tokens : List Token}
    (h : Derives room (.expression expr) tokens) (hcharge : expr.charge ≤ budget) :
    ∃ statement, Simple room budget statement tokens := by
  obtain ⟨first, hhead, -⟩ := h.starts
  cases tokens with
  | nil => cases hhead
  | cons first more => exact ⟨_, .mk h hcharge⟩

theorem Simple.of_anyName (room budget : Nat) :
    Simple room budget ⟨.anyName, .over .anyName []⟩ [Token.anyName] :=
  .mk .expression_anyName (Nat.zero_le _)

theorem Condition.of_anyName (room budget : Nat) :
    Condition room budget ⟨.anyName, .over .anyName []⟩ [.standIn .punctuation "|", Token.anyName] :=
  .mk (Token.spells_standIn _ _) (.of_anyName room budget)

namespace Logic

variable {room budget : Nat}

theorem statement_anyName :
    Logic .operation budget room (.statement (.simple ⟨.anyName, .over .anyName []⟩)) [Token.anyName] :=
  .unended (.simple (.of_anyName room budget))

theorem exists_block_emptyBlock : ∃ value, Logic .operation budget (room + 1) (.block value) Token.emptyBlock :=
  ⟨_, .block (Token.spells_standIn _ _) .noStatements (Token.spells_standIn _ _)⟩

end Logic

namespace Rule

variable {α : Type} {room budget : Nat} {p : Parser} {expr : Rule Expr} {statement : Rule Statement}

section

variable (hsound : Sound room budget (fun expr => Derives room (.expression expr)) Expr.charge expr)
  (h : Viable room budget (fun expr => Derives room (.expression expr)) Expr.charge expr)

include hsound h

theorem viable_simpleStatement : Viable room budget (Simple room budget) (fun _ => 0) (simpleStatement expr) := by
  intro p hready
  refine recovers_current_bind ?_
  refine h.budgeted.recovers_bind hsound.budgeted hready ?_ fun _ _ _ _ _ => recovers_spanSince
  rintro taken rest ⟨value, ⟨hvalue, hcharge⟩, -⟩
  obtain ⟨statement, hstatement⟩ := Simple.exists_of_derives hvalue hcharge
  exact exists_completes_free rest hstatement rfl

theorem viable_condition : Viable room budget (Condition room budget) (fun _ => 0) (condition expr) := by
  intro p hready
  refine recovers_expectWord_bind hready.isSealed (by decide) ?_ fun bar p₁ hbar htakes => ?_
  · exact exists_completes_free _ (.of_anyName room budget) rfl
  have hready₁ := hready.takes_free htakes
  refine (viable_simpleStatement hsound h p₁ hready₁).mono ?_
  rintro taken rest ⟨statement, hstatement, -⟩
  exact exists_completes_free rest (.mk hbar hstatement) rfl

theorem viableRounds_condition (kind : TokenKind) (word : String) :
    ViableRounds room budget (Condition room budget) (fun _ => 0) (conditionOffer expr kind word) := by
  intro p rule hready hoffer
  unfold conditionOffer at hoffer
  split at hoffer
  next => cases hoffer
  next =>
    cases hoffer
    exact viable_condition hsound h p hready

theorem viable_conditions (kind : TokenKind) (word : String) :
    Viable room budget (fun conditions tokens => conditions ≠ [] ∧ Series (Condition room budget) conditions tokens)
      (fun _ => 0) (conditions expr kind word) := by
  intro p hready
  have hrounds := (viableRounds_condition hsound h kind word).viable_repeatWhile_free
    (soundRounds_condition kind word hsound)
  refine (viable_condition hsound h).recovers_bind (sound_condition hsound) hready ?_
    fun first tokens p₁ hfirst htakes => ?_
  · rintro taken rest ⟨first, hfirst, -⟩
    exact exists_completes_free (rest ++ []) ⟨List.cons_ne_nil _ _, .cons hfirst .nil⟩ (by simp)
  · have hready₁ := hready.takes_free htakes
    refine recovers_bind_pure ((hrounds p₁ hready₁).mono ?_)
    rintro taken rest ⟨others, hothers, -⟩
    exact exists_completes_free rest ⟨List.cons_ne_nil _ _, .cons hfirst hothers⟩ (by simp)

end

theorem viableRounds_until (closes : Token → Prop) [DecidablePred closes] (what : String) {rule : Rule α}
    {derives : α → List Token → Prop} {cost : α → Nat} (h : Viable room budget derives cost rule)
    (hstart : ∃ rest, Completes derives cost [] rest) :
    ViableRounds room budget derives cost (untilOffer closes what rule) := by
  intro p round hready hoffer
  unfold untilOffer at hoffer
  split at hoffer
  next => cases hoffer
  split at hoffer
  next =>
    cases hoffer
    exact recovers_refuse _ hstart
  next =>
    cases hoffer
    exact h p hready

/-- Rounds up to a token that closes them. What they have read so far can be closed at once. -/
theorem Viable.recovers_until {β : Type} {rule : Rule α} {derives : α → List Token → Prop}
    {P : List Token → List Token → Prop} {next : List α → Rule β} (closes : Token → Prop) [DecidablePred closes]
    (what : String) (h : Viable room budget derives (fun _ => 0) rule)
    (hsound : Sound room budget derives (fun _ => 0) rule) (hne : ∀ value tokens, derives value tokens → tokens ≠ [])
    (hstart : ∃ rest, Completes derives (fun _ => 0) [] rest) (hready : p.Ready room budget 0)
    (hclose : ∀ values taken rest, Series derives values (taken ++ rest) → ∃ rest, P taken rest)
    (hnext : ∀ values tokens q, q.Sealed → (∃ rest, P (tokens ++ []) rest) →
      Recovers (next values) q fun taken => P (tokens ++ taken)) :
    Recovers (repeatWhile (untilOffer closes what rule) >>= next) p P := by
  have hsounds := soundRounds_until closes what hsound hne
  have hrounds := (viableRounds_until closes what h hstart).viable_repeatWhile_free hsounds
  refine hrounds.recovers_bind hsounds.sound_repeatWhile_free hready ?_ fun values tokens q hvalues htakes => ?_
  · rintro taken rest ⟨values, hvalues, -⟩
    exact hclose values taken rest hvalues
  · rw [← List.append_nil tokens] at hvalues
    refine hnext values tokens q (hready.isSealed.takes htakes) ?_
    rw [List.append_nil]
    exact hclose values tokens [] hvalues

/-- The rule for the statements of a block, if one more bracket may be opened. -/
def ViableStatement (room budget : Nat) (statement : Rule Statement) : Prop :=
  ∀ below, room = below + 1 →
    Viable below budget (fun value => Logic .operation budget below (.statement value)) (fun _ => 0) statement

section

variable (hsound : SoundStatement room budget statement) (h : ViableStatement room budget statement)

include hsound h

theorem viable_block :
    Viable room budget (fun value => Logic .operation budget room (.block value)) (fun _ => 0) (block statement) := by
  intro p hready
  refine recovers_bracketed hready fun below p' hbelow hready' _ => ?_
  have hviable := h below hbelow
  have hstatements := hsound below hbelow
  subst hbelow
  let closing := Token.standIn .punctuation "\x7d"
  have hclosing : closing.spells .punctuation "\x7d" = true := Token.spells_standIn _ _
  refine recovers_expectWord_bind hready'.isSealed (by decide) ?_ fun opening p₁ hopening hfirst => ?_
  · exact exists_completes_free _ (.block (Token.spells_standIn _ _) .noStatements hclosing) rfl
  have hready₁ := hready'.takes hfirst (Nat.le_refl _) (Nat.zero_le _)
  refine hviable.recovers_until (fun token => token.spells .punctuation "\x7d" = true) "\x7d" hstatements
    (fun _ _ => Logic.ne_nil) (exists_completes_free _ .statement_anyName rfl) hready₁
    (fun statements taken rest hseries => ?_) fun statements tokens p₂ hsealed₂ hrest => ?_
  · exact exists_completes_free (rest ++ [closing]) (.block hopening (.statements_of_series hseries) hclosing)
      (by simp)
  · exact recovers_expectWord_bind hsealed₂ (by decide) hrest fun _ _ _ _ => recovers_spanSince

theorem viable_ruleDefinition
    (hexpr : Sound room budget (fun expr => Derives room (.expression expr)) Expr.charge expr)
    (hviable : Viable room budget (fun expr => Derives room (.expression expr)) Expr.charge expr) :
    Viable room budget (fun value => Logic .operation budget room (.bare value)) (fun _ => 0)
      (ruleDefinition expr statement) := by
  intro p hready
  have hroom := hready.room
  obtain ⟨below, rfl⟩ : ∃ below, room = below + 1 := ⟨room - 1, by omega⟩
  have hname : Token.anyName.kind = .identifier := rfl
  have hcolon := Token.spells_standIn .punctuation ":"
  have hconditions : Series (Condition (below + 1) budget) _ _ := .cons (.of_anyName _ _) .nil
  obtain ⟨action, haction⟩ : ∃ action, Logic .operation budget (below + 1) (.block action) Token.emptyBlock :=
    Logic.exists_block_emptyBlock
  refine recovers_expectWord_bind hready.isSealed (by decide) ?_ fun first p₁ hfirst htakes₁ => ?_
  · exact exists_completes_free _
      (.rule (Token.spells_standIn _ _) hname hcolon (List.cons_ne_nil _ _) hconditions haction) rfl
  have hready₁ := hready.takes_free htakes₁
  refine recovers_expect_bind hready₁.isSealed (by decide) ?_ fun name p₂ hname htakes₂ => ?_
  · exact exists_completes_free _ (.rule hfirst hname hcolon (List.cons_ne_nil _ _) hconditions haction) rfl
  have hready₂ := hready₁.takes_free htakes₂
  refine recovers_expectWord_bind hready₂.isSealed (by decide) ?_ fun colon p₃ hcolon htakes₃ => ?_
  · exact exists_completes_free _ (.rule hfirst hname hcolon (List.cons_ne_nil _ _) hconditions haction) rfl
  have hready₃ := hready₂.takes_free htakes₃
  refine (viable_conditions hexpr hviable _ _).recovers_bind (sound_conditions hexpr) hready₃ ?_
    fun conditions tokens p₄ hconditions htakes₄ => ?_
  · rintro taken rest ⟨conditions, ⟨hne, hconditions⟩, -⟩
    exact exists_completes_free (rest ++ Token.emptyBlock) (.rule hfirst hname hcolon hne hconditions haction) (by simp)
  have hready₄ := hready₃.takes_free htakes₄
  refine (viable_block hsound h).recovers_bind (sound_block hsound) hready₄ ?_ fun _ _ _ _ _ => recovers_spanSince
  rintro taken rest ⟨action, haction, -⟩
  exact exists_completes_free rest (.rule hfirst hname hcolon hconditions.1 hconditions.2 haction) (by simp)

theorem viable_actionDefinition :
    Viable room budget (fun value => Logic .operation budget room (.bare value)) (fun _ => 0)
      (actionDefinition statement) := by
  intro p hready
  have hroom := hready.room
  obtain ⟨below, rfl⟩ : ∃ below, room = below + 1 := ⟨room - 1, by omega⟩
  have hname : Token.anyName.kind = .identifier := rfl
  obtain ⟨action, haction⟩ : ∃ action, Logic .operation budget (below + 1) (.block action) Token.emptyBlock :=
    Logic.exists_block_emptyBlock
  refine recovers_expectWord_bind hready.isSealed (by decide) ?_ fun first p₁ hfirst htakes₁ => ?_
  · exact exists_completes_free _ (.action (Token.spells_standIn _ _) hname haction) rfl
  have hready₁ := hready.takes_free htakes₁
  refine recovers_expect_bind hready₁.isSealed (by decide) ?_ fun name p₂ hname htakes₂ => ?_
  · exact exists_completes_free _ (.action hfirst hname haction) rfl
  have hready₂ := hready₁.takes_free htakes₂
  refine (viable_block hsound h).recovers_bind (sound_block hsound) hready₂ ?_ fun _ _ _ _ _ => recovers_spanSince
  rintro taken rest ⟨action, haction, -⟩
  exact exists_completes_free rest (.action hfirst hname haction) rfl

end

theorem viable_conditionSet
    (hsound : Sound room budget (fun expr => Derives room (.expression expr)) Expr.charge expr)
    (h : Viable room budget (fun expr => Derives room (.expression expr)) Expr.charge expr) :
    Viable room budget (fun value => Logic .operation budget room (.bare value)) (fun _ => 0) (conditionSet expr) := by
  intro p hready
  have hname : Token.anyName.kind = .identifier := rfl
  have hcolon := Token.spells_standIn .punctuation ":"
  let last := Token.standIn .keyword "end"
  have hlast : last.spells .keyword "end" = true := Token.spells_standIn _ _
  have hconditions : Series (Condition room budget) _ _ := .cons (.of_anyName _ _) .nil
  refine recovers_expectWord_bind hready.isSealed (by decide) ?_ fun first p₁ hfirst htakes₁ => ?_
  · exact exists_completes_free _
      (.conditionSet (Token.spells_standIn _ _) hname hcolon (List.cons_ne_nil _ _) hconditions hlast) rfl
  have hready₁ := hready.takes_free htakes₁
  refine recovers_expect_bind hready₁.isSealed (by decide) ?_ fun name p₂ hname htakes₂ => ?_
  · exact exists_completes_free _ (.conditionSet hfirst hname hcolon (List.cons_ne_nil _ _) hconditions hlast) rfl
  have hready₂ := hready₁.takes_free htakes₂
  refine recovers_expectWord_bind hready₂.isSealed (by decide) ?_ fun colon p₃ hcolon htakes₃ => ?_
  · exact exists_completes_free _ (.conditionSet hfirst hname hcolon (List.cons_ne_nil _ _) hconditions hlast) rfl
  have hready₃ := hready₂.takes_free htakes₃
  refine (viable_conditions hsound h _ _).recovers_bind (sound_conditions hsound) hready₃ ?_
    fun conditions tokens p₄ hconditions htakes₄ => ?_
  · rintro taken rest ⟨conditions, ⟨hne, hconditions⟩, -⟩
    exact exists_completes_free (rest ++ [last]) (.conditionSet hfirst hname hcolon hne hconditions hlast) (by simp)
  · have hsealed₄ := hready₃.isSealed.takes htakes₄
    refine recovers_expectWord_bind hsealed₄ (by decide) ?_ fun _ _ _ _ => recovers_spanSince
    exact exists_completes_free [last] (.conditionSet hfirst hname hcolon hconditions.1 hconditions.2 hlast) (by simp)

theorem viable_declaration
    (hsound : Sound room budget (fun expr => Derives room (.operation expr)) Expr.charge expr)
    (h : Viable room budget (fun expr => Derives room (.operation expr)) Expr.charge expr) :
    Viable room budget (fun value => Logic .operation budget room (.bare value)) (fun _ => 0) (declaration expr) := by
  intro p hready
  have hname : Token.anyName.kind = .identifier := rfl
  refine recovers_expectWord_bind hready.isSealed (by decide) ?_ fun first p₁ hfirst htakes₁ => ?_
  · exact exists_completes_free _ (.declaration (Token.spells_standIn _ _) hname) rfl
  have hready₁ := hready.takes_free htakes₁
  refine recovers_expect_bind hready₁.isSealed (by decide) ?_ fun name p₂ hname htakes₂ => ?_
  · exact exists_completes_free _ (.declaration hfirst hname) rfl
  have hready₂ := hready₁.takes_free htakes₂
  refine recovers_passWord_bind hready₂.isSealed (by decide) (fun equals p₃ hequals htakes₃ => ?_) ?_
  · have hready₃ := hready₂.takes_free htakes₃
    rw [if_pos rfl]
    refine recovers_bind (recovers_map ((h.budgeted p₃ hready₃).mono ?_)) fun _ q hrule => ?_
    · rintro taken rest ⟨value, ⟨hvalue, hcharge⟩, -⟩
      exact exists_completes_free rest (.definition hfirst hname hequals hvalue hcharge) rfl
    · obtain ⟨value, hvalue, -⟩ := map_eq_ok.mp hrule
      obtain ⟨tokens, htakes, -⟩ := hsound.budgeted p₃ value q hready₃.hasRoom hvalue
      exact ⟨tokens, _, htakes, recovers_spanSince⟩
  · rw [if_neg (by decide)]
    exact recovers_pure_bind recovers_spanSince

theorem recovers_invocation {form : Token → Span → Statement} {P : List Token → List Token → Prop}
    (hready : p.Ready room budget 0) (hkind : p.current.kind = .callKeyword) (h : P [p.current] [.anyName]) :
    Recovers (invocation form) p P := by
  refine recovers_current_bind ?_
  refine recovers_shift_bind hready.isSealed (by simp [hkind]) fun p₁ htakes => ?_
  have hsealed₁ := hready.isSealed.takes htakes
  exact recovers_expect_bind hsealed₁ (by decide) ⟨_, h⟩ fun _ _ _ _ => recovers_spanSince

theorem recovers_command (hready : p.Ready room budget 0) (hevaluate : p.current.text ≠ "evaluate")
    (hperform : p.current.text ≠ "do") (hmode : AnswerMode.ofKeyword? p.current.text = none) :
    Recovers (command (arguments (expression room))) p
      (Completes (fun value => Logic .operation budget room (.bare value)) fun _ => 0) := by
  refine recovers_expect_bind hready.isSealed (by decide) ?_ fun name p₁ hname htakes => ?_
  · exact exists_completes_free _ (.simple (.of_anyName room budget)) rfl
  rw [htakes.current_eq] at hevaluate hperform hmode
  have hready₁ := hready.takes_free htakes
  have hsound := sound_arguments (soundWithin_expression room budget)
  refine (viable_arguments (viableWithin room budget)).budgeted.recovers_bind hsound.budgeted hready₁ ?_
    fun _ _ _ _ _ => recovers_spanSince
  rintro taken rest ⟨answers, ⟨hanswers, hcharge⟩, -⟩
  exact exists_completes_free rest (.command hname hevaluate hperform hmode hanswers hcharge) rfl

theorem recovers_simple (hready : p.Ready room budget 0) :
    Recovers (Statement.simple <$> simpleStatement (assignment (expression room))) p
      (Completes (fun value => Logic .operation budget room (.bare value)) fun _ => 0) := by
  have hsound := sound_expression room budget
  refine recovers_map ((viable_simpleStatement hsound (viable_expression room budget) p hready).mono ?_)
  rintro taken rest ⟨statement, hstatement, -⟩
  exact exists_completes_free rest (.simple hstatement) rfl

theorem viable_bareStatement (hsound : SoundStatement room budget statement)
    (h : ViableStatement room budget statement) :
    Viable room budget (fun value => Logic .operation budget room (.bare value)) (fun _ => 0)
      (bareStatement (expression room) statement) := by
  intro p hready
  have hassignment := sound_expression room budget
  have hviable := viable_expression room budget
  have hwithin := soundWithin_expression room budget
  have hname : ∃ rest, Completes (fun value => Logic .operation budget room (.bare value)) (fun _ => 0) [] rest :=
    exists_completes_free _ (.simple (.of_anyName room budget)) rfl
  refine recovers_current_bind ?_
  cases hkind : p.current.kind with
  | string => exact recovers_simple hready
  | number => exact recovers_simple hready
  | valueKeyword => exact recovers_simple hready
  | identifier => exact recovers_simple hready
  | punctuation =>
      dsimp only
      split
      next => exact recovers_simple hready
      next => exact recovers_refuseUnexpected hname
  | callKeyword =>
      dsimp only
      split
      next htext =>
        have hfirst := Token.spells_iff.mpr ⟨hkind, htext⟩
        exact recovers_invocation hready hkind ⟨_, .evaluate hfirst rfl, Nat.zero_le _⟩
      next hevaluate =>
        split
        next htext =>
          have hfirst := Token.spells_iff.mpr ⟨hkind, htext⟩
          exact recovers_invocation hready hkind ⟨_, .perform hfirst rfl, Nat.zero_le _⟩
        next hperform =>
          split
          next => exact recovers_refuseUnexpected hname
          next hmode => exact recovers_command hready hevaluate hperform (by simpa using hmode)
  | keyword =>
      dsimp only
      split
      next => exact viable_ruleDefinition hsound h hassignment hviable p hready
      split
      next => exact viable_actionDefinition hsound h p hready
      split
      next => exact viable_conditionSet hassignment hviable p hready
      split
      next =>
        exact viable_declaration (sound_operation hwithin) (viable_operation (viableWithin room budget)) p hready
      split
      next => exact recovers_simple hready
      next => exact recovers_refuseUnexpected hname
  | _ => exact recovers_refuseUnexpected hname

theorem viable_statement_succ (h : ViableStatement room budget (Rule.statement room)) :
    Viable room budget (fun value => Logic .operation budget room (.statement value)) (fun _ => 0)
      (Rule.statement (room + 1)) := by
  intro p hready
  have hsound := soundStatement room budget
  have hbare := sound_bareStatement (soundWithin_expression room budget) hsound
  refine (viable_bareStatement hsound h).recovers_bind hbare hready ?_ fun value tokens p₁ _ htakes => ?_
  · rintro taken rest ⟨value, hvalue, -⟩
    exact exists_completes_free rest (.unended hvalue) rfl
  · have hsealed₁ := hready.isSealed.takes htakes
    exact recovers_passWord_bind hsealed₁ (by decide) (fun _ _ _ _ => recovers_pure) recovers_pure

theorem viable_statement (room budget : Nat) :
    Viable room budget (fun value => Logic .operation budget room (.statement value)) (fun _ => 0)
      (Rule.statement (room + 1)) := by
  induction room with
  | zero => exact viable_statement_succ fun below h => by omega
  | succ room ih =>
      refine viable_statement_succ fun below h => ?_
      obtain rfl := Nat.succ.inj h
      exact ih

end Rule

end Questionnaire
