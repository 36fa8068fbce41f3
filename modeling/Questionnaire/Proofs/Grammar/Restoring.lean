import Questionnaire.Proofs.Grammar.Paced

/-! The counters of a parser. A production leaves the count of open brackets as it has found it, whether it answers or
stops, and the budget with no more on it than what it has charged, token by token; the rule that gives an expression a
budget of its own puts the old one back. So both counters are at zero after every call. -/

namespace Questionnaire

namespace Rule

/-- The productions of the grammar, at every level of brackets. Whether one may charge the budget that it is run with is
told first. -/
inductive Production : {α : Type} → Bool → Rule α → Prop where
  | expression (level : Nat) : Production true (expression level)
  | operation (level : Nat) : Production true (operation (expression level))
  | operand (level : Nat) : Production true (operand (expression level))
  | links (level : Nat) : Production true (links (expression level))
  | group (level : Nat) : Production true (group (expression level))
  | number : Production true number
  | members : Production true members
  | withMembers (container : Expr) : Production true (withMembers container)
  | answerMode : Production true answerMode
  | answered (level : Nat) : Production true (answered (expression level))
  | arguments (level : Nat) : Production true (arguments (expression level))
  | simpleStatement (level : Nat) : Production false (simpleStatement (expression level))
  | embedded (level : Nat) : Production false (embedded (expression level))
  | block (level : Nat) : Production false (block (statement level))
  | condition (level : Nat) : Production false (condition (expression level))
  | conditions (level : Nat) (kind : TokenKind) (word : String) :
      Production false (conditions (expression level) kind word)
  | ruleDefinition (level level' : Nat) : Production false (ruleDefinition (expression level) (statement level'))
  | actionDefinition (level : Nat) : Production false (actionDefinition (statement level))
  | conditionSet (level : Nat) : Production false (conditionSet (expression level))
  | declaration (level : Nat) : Production false (declaration (operation (expression level)))
  | invocation (form : Token → Span → Statement) : Production false (invocation form)
  | command (level : Nat) : Production false (command (arguments (expression level)))
  | bareStatement (level level' : Nat) : Production false (bareStatement (expression level) (statement level'))
  | statement (level : Nat) : Production false (statement level)
  | attributeValue (level : Nat) : Production false (attributeValue (embedded (expression level)))
  | oneAttribute (level : Nat) : Production false (oneAttribute (embedded (expression level)))
  | questionAttributes (level : Nat) :
      Production false (attributes (embedded (expression level)) .questionOpen .questionClose)
  | optionAttributes (level : Nat) :
      Production false (attributes (embedded (expression level)) .optionOpen .optionClose)
  | texts (level : Nat) : Production false (texts (embedded (expression level)))
  | answerOption (level : Nat) : Production false (answerOption (embedded (expression level)))
  | question (level : Nat) : Production false (question (embedded (expression level)))
  | interlude (level : Nat) : Production false (interlude (statement level))
  | component (level : Nat) : Production false (component level)
  | document (level : Nat) : Production false (document level)

variable {α : Type} {spends : Bool} {rule : Rule α} {p : Parser}

/-- Every production is paced, whatever is ahead and however many brackets are open. -/
theorem Production.paced (h : Production spends rule) (room : Nat) : Paced room spends false none rule rule := by
  have hadvances : Advances false none := nofun
  have hexpression (room level : Nat) : Strides room true (Rule.expression level) (Rule.expression level) :=
    Paced.expression (.inl rfl)
  have hdeeper (level : Nat) : Deeper room true (Rule.expression level) (Rule.expression level) :=
    fun below _ => hexpression below level
  have hstatement (room level : Nat) : Strides room false (Rule.statement level) (Rule.statement level) :=
    Paced.statement (.inl rfl)
  have hbody (level : Nat) : Deeper room false (Rule.statement level) (Rule.statement level) :=
    fun below _ => hstatement below level
  have hembedded (level : Nat) :
      Strides room false (Rule.embedded (Rule.expression level)) (Rule.embedded (Rule.expression level)) :=
    Paced.embedded (hdeeper level)
  cases h with
  | expression level => exact hexpression room level _ _
  | operation level => exact .operation (hdeeper level) _ _
  | operand level => exact .operand (hdeeper level) _ _
  | links level => exact .links (hdeeper level)
  | group level => exact .group hadvances (hdeeper level)
  | number => exact .number hadvances
  | members => exact .members
  | withMembers container => exact .withMembers container
  | answerMode => exact .answerMode _ _
  | answered level => exact .answered (hdeeper level) _ _
  | arguments level => exact .arguments (hdeeper level) _ _
  | simpleStatement level => exact .simpleStatement (hexpression room level) _ _
  | embedded level => exact hembedded level _ _
  | block level => exact .block (hbody level) _ _
  | condition level => exact .condition (hexpression room level) _ _
  | conditions level kind word => exact .conditions (hexpression room level) kind word _ _
  | ruleDefinition level level' => exact .ruleDefinition (hexpression room level) (hbody level') _ _
  | actionDefinition level => exact .actionDefinition (hbody level) _ _
  | conditionSet level => exact .conditionSet (hexpression room level) _ _
  | declaration level => exact .declaration (Paced.operation (hdeeper level)) _ _
  | invocation form => exact .invocation hadvances form
  | command level => exact .command (Paced.arguments (hdeeper level)) _ _
  | bareStatement level level' => exact .bareStatement (hdeeper level) (hbody level') _ _
  | statement level => exact hstatement room level _ _
  | attributeValue level => exact .attributeValue (hembedded level) _ _
  | oneAttribute level => exact .oneAttribute (hembedded level) _ _
  | questionAttributes level => exact .attributes (hembedded level) TokenKind.noConfusion TokenKind.noConfusion _ _
  | optionAttributes level => exact .attributes (hembedded level) TokenKind.noConfusion TokenKind.noConfusion _ _
  | texts level => exact .texts (hembedded level)
  | answerOption level => exact .answerOption (hembedded level) _ _
  | question level => exact .question (hembedded level) _ _
  | interlude level => exact .interlude (hstatement room level) _ _
  | component level => exact .component (.inl rfl) _ _
  | document level => exact .document (.inl rfl)

theorem Production.concludes (h : Production spends rule) (p : Parser) : Concludes spends false rule p (rule p) :=
  (h.paced p.limits.maxNesting).concludes p.opensAtMost_maxNesting nofun

/-- A budget of its own leaves both counters as they were. -/
theorem Production.budgeted (h : Production spends rule) (p : Parser) :
    (leftBy (budgeted rule p)).depth = p.depth ∧ (leftBy (budgeted rule p)).links = p.links := by
  obtain ⟨pulled, charged, hruns, -⟩ := h.concludes { p with links := 0 }
  rw [show Rule.budgeted rule p = exiting (fun after => { after with links := p.links })
    (rule { p with links := 0 }) from leaving_apply _ _ _]
  have hkeeps := (Runs.budgeted hruns).keeps
  exact ⟨hkeeps.depth, hkeeps.links⟩

end Rule

namespace Parser

/-- After any number of calls no bracket is open and nothing is charged. A production that is run from any parser, and
answers or stops, leaves the brackets as they were; what it has charged, one operator or member after the other, is all
that is new on the budget, and a rule with a budget of its own puts back the old one. -/
theorem counters_restored (limits : Limits) (items : List Item) :
    (∀ count, ((ofItems limits items).called count).depth = 0 ∧ ((ofItems limits items).called count).links = 0) ∧
    ∀ {α : Type} {spends : Bool} {rule : Rule α}, Rule.Production spends rule → ∀ p : Parser,
      (∃ pulled charged, Rule.Runs rule p pulled charged (rule p) ∧ (leftBy (rule p)).depth = p.depth ∧
        (leftBy (rule p)).links = p.links + charged.length ∧ (∀ token ∈ charged, token.IsLink) ∧
        (spends = false → charged = [])) ∧
      (leftBy (Rule.budgeted rule p)).depth = p.depth ∧ (leftBy (Rule.budgeted rule p)).links = p.links := by
  refine ⟨fun count => ?_, fun hproduction p => ⟨?_, hproduction.budgeted p⟩⟩
  · rcases primed_called limits items count with hnew | ⟨hidle, -⟩
    · rw [hnew]
      exact ⟨rfl, rfl⟩
    · exact ⟨hidle.depth, hidle.links⟩
  · obtain ⟨pulled, charged, hruns, hlinks, hspends, -⟩ := hproduction.concludes p
    exact ⟨pulled, charged, hruns, hruns.keeps.depth, hruns.keeps.links, hlinks, hspends⟩

/-- Both members of `.first.` are charged where the parser stands, and the fault leaves them there. -/
theorem counters_restored_members :
    let point : Token := ⟨.punctuation, ".", .origin⟩
    let last : Token := ⟨.endOfInput, "", .origin⟩
    let parser : Parser := ⟨.standard, [.ok ⟨.identifier, "first", .origin⟩, .ok point, .ok last], point, placeholder,
      true, 3, 5⟩
    Rule.Production true Rule.members ∧ (leftBy (Rule.members parser)).depth = 3 ∧
      (leftBy (Rule.members parser)).links = 7 ∧ (leftBy (Rule.members parser)).current = last ∧
      (leftBy (Rule.budgeted Rule.members parser)).links = 5 := by
  intro point last parser
  obtain ⟨⟨_, _, _, hdepth, -⟩, -, hlinks⟩ := (counters_restored .standard []).2 .members parser
  exact ⟨.members, hdepth, by cbv, by cbv, hlinks⟩

end Parser

end Questionnaire
