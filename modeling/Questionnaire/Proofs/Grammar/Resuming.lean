import Mathlib
import Questionnaire.Proofs.Grammar.Guided
import Questionnaire.Proofs.Grammar.Parallel
import Questionnaire.Proofs.Token.Layout

/-! A parser that is called again after a fault. Every call puts the counters back, so that the next one goes on from
the token ahead as a new parser would. At the end of input that is a document without components; at any other token of
a source it is a fault again, since no component begins where the grammar refuses a token. -/

namespace Questionnaire

variable {α β : Type} {spends : Bool} {mode before after : Mode} {ahead : Option Token}

namespace Parser

/-- A later parser with the counters of an earlier one, but for charges where some may be made. -/
structure Restores (spends : Bool) (first second : Parser) : Prop where
  limits : second.limits = first.limits
  started : second.started = first.started
  depth : second.depth = first.depth
  links : spends = false → second.links = first.links

protected theorem Restores.refl (p : Parser) : p.Restores spends p := ⟨rfl, rfl, rfl, fun _ => rfl⟩

theorem Restores.trans {p q r : Parser} (h : p.Restores spends q) (h' : q.Restores spends r) : p.Restores spends r :=
  ⟨h'.limits.trans h.limits, h'.started.trans h.started, h'.depth.trans h.depth,
    fun hspends => (h'.links hspends).trans (h.links hspends)⟩

end Parser

namespace Rule

variable {rule : Rule α} {p : Parser}

theorem restores_bind {next : α → Rule β} (h : p.Restores spends (leftBy (rule p)))
    (hnext : ∀ value q, rule p = .ok value q → q.Restores spends (leftBy (next value q))) :
    p.Restores spends (leftBy ((rule >>= next) p)) := by
  change p.Restores spends (leftBy (EStateM.bind rule next p))
  unfold EStateM.bind
  cases hrule : rule p with
  | ok value q =>
      rw [hrule] at h
      exact h.trans (hnext value q hrule)
  | error diagnostic q =>
      rw [hrule] at h
      exact h

theorem restores_leaving {exit : Parser → Parser} {q : Parser}
    (h : p.Restores spends (exit (leftBy (rule q)))) : p.Restores spends (leftBy (leaving exit rule q)) := by
  unfold leaving
  cases hrule : rule q <;> rwa [hrule] at h

theorem restores_rounds {offer : Token → Option (Rule α)}
    (hoffer : ∀ p : Parser, ∀ rule ∈ offer p.current, p.Restores spends (leftBy (rule p))) (fuel : List Item)
    (p : Parser) : p.Restores spends (leftBy (rounds offer fuel p)) := by
  cases hround : offer p.current with
  | none =>
      rw [rounds_of_none fuel hround]
      exact .refl p
  | some round =>
      rw [rounds_of_some fuel hround]
      refine restores_bind (hoffer p round hround) fun _ q _ => ?_
      cases fuel with
      | nil => exact .refl q
      | cons item fuel => exact restores_bind (restores_rounds hoffer fuel q) fun _ r _ => .refl r

theorem restores_shift (p : Parser) : p.Restores spends (leftBy (shift p)) := by
  unfold shift fetch
  split
  · exact .refl p
  · cases hitems : p.items with
    | nil => exact .refl p
    | cons item items => cases item <;> exact ⟨rfl, rfl, rfl, fun _ => rfl⟩

theorem charge_bind (next : Unit → Rule β) (p : Parser) : (charge >>= next) p =
    if p.limits.maxExpressionDepth ≤ p.links then refuse .tooDeep p else next () { p with links := p.links + 1 } := by
  change EStateM.bind charge next p = _
  unfold EStateM.bind charge
  by_cases hspent : p.limits.maxExpressionDepth ≤ p.links
  · rw [if_pos hspent, if_pos hspent]
    rfl
  · rw [if_neg hspent, if_neg hspent]

/-- A rule puts back the counter of open brackets, and the budget as well unless it may charge it. -/
theorem Guided.restores (h : Guided spends before ahead rule after) (hahead : ∀ known ∈ ahead, p.current = known) :
    p.Restores spends (leftBy (rule p)) := by
  induction h generalizing p with
  | pure value => exact .refl p
  | bind _ _ ih ihNext => exact restores_bind (ih hahead) fun value q _ => ihNext value nofun
  | look _ ih => exact ih p.current hahead fun _ hknown => Option.some.inj hknown
  | shift => exact restores_shift p
  | charge _ _ ih =>
      rw [charge_bind]
      split
      · exact .refl p
      · have hrule := @ih { p with links := p.links + 1 } hahead
        exact ⟨hrule.limits, hrule.started, hrule.depth, nofun⟩
  | spanSince first => exact .refl p
  | throw => exact .refl p
  | refuse => exact .refl p
  | bracketed _ _ ih =>
      unfold Rule.bracketed
      split
      · exact .refl p
      · have hrule := @ih { p with depth := p.depth + 1 } hahead
        exact restores_leaving ⟨hrule.limits, hrule.started, by rw [hrule.depth]; rfl, hrule.links⟩
  | budgeted _ ih =>
      have hrule := @ih { p with links := 0 } hahead
      exact restores_leaving ⟨hrule.limits, hrule.started, hrule.depth, fun _ => rfl⟩
  | repeatWhile _ ih =>
      exact restores_rounds (fun q rule hrule => ih q.current rule hrule fun _ => Option.some.inj) p.items p

end Rule

/-- The items that a lexer of the mode may yield. Nothing comes after a fault. -/
inductive Yields : Mode → List Item → Prop where
  | nil {mode : Mode} : Yields mode []
  | fault {mode : Mode} {diagnostic : Diagnostic} : Yields mode [.error diagnostic]
  | token {before after : Mode} {token : Token} {items : List Item} (hturn : before.Turns token.kind after)
      (hitems : Yields after items) : Yields before (.ok token :: items)

theorem Lexer.yields_items (lexer : Lexer) : Yields lexer.mode lexer.items := by
  unfold items
  fun_induction run lexer with
  | case1 => exact .nil
  | case2 lexer item after hpull ih =>
      have hstep := lexer.step_next
      unfold pull at hpull
      split at hpull
      · cases hpull
      obtain ⟨hfirst, hafter⟩ := Prod.mk.inj hpull
      have hitem : lexer.next.1 = item := Option.some.inj hfirst
      have hmode : lexer.next.2.mode = after.mode := by
        rw [← hafter]
        rfl
      have hdone : after.done = Item.isLast item := by
        rw [← hafter, ← hitem]
        rfl
      rw [hitem, hmode] at hstep
      cases item with
      | ok token => exact .token hstep ih
      | error diagnostic =>
          rw [run_of_done hdone]
          exact .fault

namespace Parser

/-- The token ahead and the items behind it are what a lexer of the mode yields. -/
def StandsIn (parser : Parser) (mode : Mode) : Prop :=
  parser.current.kind = .endOfInput ∨ ∃ after, mode.Turns parser.current.kind after ∧ Yields after parser.items

/-- Nothing comes next, or no component begins with the token ahead. -/
def Stuck (parser : Parser) : Prop := parser.items = [] ∨ Rule.opensComponent parser.current = false

end Parser

namespace Rule

variable {rule : Rule α} {p : Parser}

theorem stuck_of_noneOpens (hstands : p.StandsIn mode) (hnone : NoneOpens mode ahead)
    (hahead : ∀ known ∈ ahead, p.current = known) : p.Stuck := by
  right
  rcases hnone with hmode | ⟨token, htoken, hopens⟩
  · rw [opensComponent, Bool.or_eq_false_iff, beq_eq_false_iff_ne, beq_eq_false_iff_ne]
    rcases hstands with hend | ⟨after, hturn, -⟩
    · rw [hend]
      exact ⟨TokenKind.noConfusion, TokenKind.noConfusion⟩
    · exact hturn.not_opens hmode
  · rw [hahead token htoken]
    exact hopens

/-- How a reading of what a lexer yields may end. -/
inductive Arrives (mode : Mode) : EStateM.Result Diagnostic Parser α → Prop where
  | ok {value : α} {q : Parser} (h : q.StandsIn mode) : Arrives mode (.ok value q)
  | error {diagnostic : Diagnostic} {q : Parser} (h : q.Stuck) : Arrives mode (.error diagnostic q)

theorem arrives_bind {next : α → Rule β} (h : Arrives mode (rule p))
    (hnext : ∀ value q, q.StandsIn mode → Arrives after (next value q)) : Arrives after ((rule >>= next) p) := by
  change Arrives after (EStateM.bind rule next p)
  unfold EStateM.bind
  generalize rule p = result at h
  cases h with
  | ok h => exact hnext _ _ h
  | error h => exact .error h

theorem arrives_leaving {exit : Parser → Parser} (h : Arrives mode (rule p))
    (hcurrent : ∀ q, (exit q).current = q.current) (hitems : ∀ q, (exit q).items = q.items) :
    Arrives mode (leaving exit rule p) := by
  unfold leaving
  generalize rule p = result at h
  cases h with
  | ok h => exact .ok (by rwa [Parser.StandsIn, hcurrent, hitems])
  | error h => exact .error (by rwa [Parser.Stuck, hcurrent, hitems])

theorem arrives_shift (hstands : p.StandsIn mode) (hturn : ∀ next, mode.Turns p.current.kind next → next = after) :
    Arrives after (shift p) := by
  unfold shift
  split
  next hend => exact .ok (.inl hend)
  next hkind =>
    obtain ⟨next, hnext, hitems⟩ := hstands.resolve_left hkind
    obtain rfl := hturn next hnext
    unfold fetch
    generalize hlist : p.items = items at hitems
    cases hitems with
    | nil => exact .error (.inl hlist)
    | fault => exact .error (.inl rfl)
    | token hturn hitems => exact .ok (.inr ⟨_, hturn, hitems⟩)

theorem arrives_rounds {p : Parser} {offer : Token → Option (Rule α)}
    (hoffer : ∀ p : Parser, ∀ rule ∈ offer p.current, p.StandsIn mode → Arrives mode (rule p)) (fuel : List Item)
    (hstands : p.StandsIn mode) : Arrives mode (rounds offer fuel p) := by
  cases hround : offer p.current with
  | none =>
      rw [rounds_of_none fuel hround]
      exact .ok hstands
  | some round =>
      rw [rounds_of_some fuel hround]
      refine arrives_bind (hoffer p round hround hstands) fun _ q hq => ?_
      cases fuel with
      | nil => exact .ok hq
      | cons item fuel => exact arrives_bind (arrives_rounds hoffer fuel hq) fun _ _ hr => .ok hr

/-- A rule that goes from one mode to another arrives there, or stops where no component begins. -/
theorem Guided.arrives (h : Guided spends before ahead rule after) (hahead : ∀ known ∈ ahead, p.current = known)
    (hstands : p.StandsIn before) : Arrives after (rule p) := by
  induction h generalizing p with
  | pure value => exact .ok hstands
  | bind _ _ ih ihNext => exact arrives_bind (ih hahead hstands) fun value q => ihNext value nofun
  | look _ ih => exact ih p.current hahead (fun _ hknown => Option.some.inj hknown) hstands
  | shift hturn =>
      rw [← hahead _ rfl] at hturn
      exact arrives_shift hstands hturn
  | charge hnone _ ih =>
      rw [charge_bind]
      split
      · exact .error (stuck_of_noneOpens hstands hnone hahead)
      · exact ih hahead hstands
  | spanSince first => exact .ok hstands
  | throw hnone => exact .error (stuck_of_noneOpens hstands hnone hahead)
  | refuse hnone => exact .error (stuck_of_noneOpens hstands hnone hahead)
  | bracketed hnone _ ih =>
      unfold Rule.bracketed
      split
      · exact .error (stuck_of_noneOpens hstands hnone hahead)
      · exact arrives_leaving (ih hahead hstands) (fun _ => rfl) fun _ => rfl
  | budgeted _ ih => exact arrives_leaving (ih hahead hstands) (fun _ => rfl) fun _ => rfl
  | repeatWhile _ ih =>
      exact arrives_rounds (fun q rule hrule => ih q.current rule hrule fun _ => Option.some.inj) p.items hstands

/-- Two readings that answer the same and leave parsers that differ in the last token taken alone. -/
inductive Alike : EStateM.Result Diagnostic Parser α → EStateM.Result Diagnostic Parser α → Prop where
  | ok {value : α} {q : Parser} (token : Token) : Alike (.ok value q) (.ok value { q with previous := token })
  | error {diagnostic : Diagnostic} {q : Parser} (token : Token) :
      Alike (.error diagnostic q) (.error diagnostic { q with previous := token })

protected theorem Alike.refl (result : EStateM.Result Diagnostic Parser α) : Alike result result := by
  cases result with
  | ok value q => exact .ok q.previous
  | error diagnostic q => exact .error q.previous

/-- A token that is taken takes the place of the last one. -/
theorem shift_previous {p : Parser} (h : p.current.kind ≠ .endOfInput) (token : Token) :
    (∃ q, shift p = .ok () q ∧ shift { p with previous := token } = .ok () q) ∨
      ∃ diagnostic q, shift p = .error diagnostic q ∧
        shift { p with previous := token } = .error diagnostic { q with previous := token } := by
  obtain ⟨limits, items, current, previous, started, depth, links⟩ := p
  unfold shift
  rw [if_neg h, if_neg h]
  cases items with
  | nil => exact .inr ⟨_, _, rfl, rfl⟩
  | cons item items =>
      cases item with
      | ok first => exact .inl ⟨_, rfl, rfl⟩
      | error diagnostic => exact .inr ⟨_, _, rfl, rfl⟩

theorem alike_shift_bind {p : Parser} (h : p.current.kind ≠ .endOfInput) (next : Unit → Rule β) (token : Token) :
    Alike ((shift >>= next) p) ((shift >>= next) { p with previous := token }) := by
  change Alike (EStateM.bind shift next p) (EStateM.bind shift next { p with previous := token })
  unfold EStateM.bind
  rcases shift_previous h token with ⟨q, hfirst, hsecond⟩ | ⟨diagnostic, q, hfirst, hsecond⟩
  · rw [hfirst, hsecond]
    exact .refl _
  · rw [hfirst, hsecond]
    exact .error token

theorem alike_expect_bind {kind : TokenKind} (hkind : kind ≠ .endOfInput) (next : Token → Rule β) (p : Parser)
    (token : Token) : Alike ((expect kind >>= next) p) ((expect kind >>= next) { p with previous := token }) := by
  rw [expect, bind_assoc, current_bind, current_bind]
  by_cases hsame : p.current.kind = kind
  · rw [if_pos hsame, bind_assoc]
    exact alike_shift_bind (hsame ▸ hkind) _ token
  · rw [if_neg hsame]
    exact .error token

theorem component_apply (maxNesting : Nat) (p : Parser) : component maxNesting p =
    (if p.current.kind = .questionOpen then question (embedded (expression maxNesting))
      else if p.current.kind = .logicOpen then interlude (statement (maxNesting + 1)) else refuseUnexpected) p := by
  rw [component, current_bind]
  cases p.current.kind <;> rfl

theorem alike_component (maxNesting : Nat) (p : Parser) (token : Token) :
    Alike (component maxNesting p) (component maxNesting { p with previous := token }) := by
  rw [component_apply, component_apply]
  dsimp only
  split_ifs
  · rw [question, current_bind, current_bind, attributes, bind_assoc]
    exact alike_expect_bind TokenKind.noConfusion _ p token
  · exact alike_expect_bind TokenKind.noConfusion _ p token
  · exact .error token

theorem alike_bind {rule : Rule α} {next : α → Rule β} {p : Parser} {token : Token}
    (h : Alike (rule p) (rule { p with previous := token }))
    (hnext : ∀ value (q : Parser) (other : Token), Alike (next value q) (next value { q with previous := other })) :
    Alike ((rule >>= next) p) ((rule >>= next) { p with previous := token }) := by
  change Alike (EStateM.bind rule next p) (EStateM.bind rule next { p with previous := token })
  unfold EStateM.bind
  generalize rule p = first at h
  generalize rule { p with previous := token } = second at h
  cases h with
  | ok other => exact hnext _ _ other
  | error other => exact .error other

theorem alike_rounds {offer : Token → Option (Rule α)} (hoffer : ∀ (p : Parser) (token : Token),
    ∀ rule ∈ offer p.current, Alike (rule p) (rule { p with previous := token })) (fuel : List Item) (p : Parser)
    (token : Token) : Alike (rounds offer fuel p) (rounds offer fuel { p with previous := token }) := by
  cases hround : offer p.current with
  | none =>
      rw [rounds_of_none fuel hround, @rounds_of_none _ { p with previous := token } _ fuel hround]
      exact .ok token
  | some round =>
      rw [rounds_of_some fuel hround, @rounds_of_some _ _ { p with previous := token } _ fuel hround]
      refine alike_bind (hoffer p token round hround) fun _ q other => ?_
      cases fuel with
      | nil => exact .ok other
      | cons item fuel => exact alike_bind (alike_rounds hoffer fuel q other) fun _ _ another => .ok another

theorem document_of_started {p : Parser} (h : p.started = true) (maxNesting : Nat) : document maxNesting p =
    (repeatWhile (componentOffer maxNesting) >>= fun components => pure (Document.mk components)) p := by
  change EStateM.bind start _ p = _
  unfold EStateM.bind start
  rw [if_pos h]
  rfl

theorem alike_document {p : Parser} (h : p.started = true) (maxNesting : Nat) (token : Token) :
    Alike (document maxNesting p) (document maxNesting { p with previous := token }) := by
  have hsecond : ({ p with previous := token } : Parser).started = true := h
  rw [document_of_started h, document_of_started hsecond]
  refine alike_bind (alike_rounds (fun p token rule hrule => ?_) p.items p token) fun _ _ other => .ok other
  unfold componentOffer at hrule
  split at hrule
  · cases hrule
  · cases hrule
    exact alike_component maxNesting p token

theorem restores_document {p : Parser} (h : p.started = true) (maxNesting : Nat) :
    p.Restores false (leftBy (document maxNesting p)) := by
  rw [document_of_started h]
  refine restores_bind ?_ fun _ q _ => .refl q
  exact Guided.restores (@Guided.components false none maxNesting) nofun

theorem expect_of_last {kind : TokenKind} {p : Parser} (h : p.items = []) (hopen : p.current.kind ≠ .endOfInput)
    (hkind : p.current.kind = kind) : expect kind p = .error ⟨.streamEnded, p.current.position⟩ p := by
  rw [expect, current_bind, if_pos hkind]
  change EStateM.bind shift _ p = _
  unfold EStateM.bind shift fetch
  rw [if_neg hopen, h]
  rfl

theorem bind_of_error {rule : Rule α} {next : α → Rule β} {p q : Parser} {diagnostic : Diagnostic}
    (h : rule p = .error diagnostic q) : (rule >>= next) p = .error diagnostic q := by
  change EStateM.bind rule next p = _
  unfold EStateM.bind
  rw [h]

/-- Where no component begins, the grammar refuses the token ahead, or finds that nothing comes next. -/
theorem component_of_stuck {p : Parser} (h : p.Stuck) (hkind : p.current.kind ≠ .endOfInput) (maxNesting : Nat) :
    ∃ diagnostic, component maxNesting p = .error diagnostic p := by
  rw [component_apply]
  by_cases hquestion : p.current.kind = .questionOpen
  · have hitems : p.items = [] := h.resolve_right (by simp [opensComponent, hquestion])
    rw [if_pos hquestion, question, current_bind, attributes, bind_assoc]
    exact ⟨_, bind_of_error (expect_of_last hitems hkind hquestion)⟩
  rw [if_neg hquestion]
  by_cases hlogic : p.current.kind = .logicOpen
  · have hitems : p.items = [] := h.resolve_right (by simp [opensComponent, hlogic])
    rw [if_pos hlogic, interlude]
    exact ⟨_, bind_of_error (expect_of_last hitems hkind hlogic)⟩
  · rw [if_neg hlogic]
    exact ⟨_, rfl⟩

/-- What is said of the first round is said of all of a document. -/
theorem document_of_stuck {p : Parser} (hstarted : p.started = true) (h : p.Stuck)
    (hkind : p.current.kind ≠ .endOfInput) (maxNesting : Nat) :
    ∃ diagnostic, document maxNesting p = .error diagnostic p := by
  obtain ⟨diagnostic, hcomponent⟩ := component_of_stuck h hkind maxNesting
  have hoffer : componentOffer maxNesting p.current = some (component maxNesting) := if_neg hkind
  refine ⟨diagnostic, ?_⟩
  rw [document_of_started hstarted]
  apply bind_of_error
  rw [repeatWhile, rounds_of_some p.items hoffer]
  exact bind_of_error hcomponent

theorem document_of_endOfInput {p : Parser} (hstarted : p.started = true) (hkind : p.current.kind = .endOfInput)
    (maxNesting : Nat) : document maxNesting p = .ok ⟨[]⟩ p := by
  have hoffer : componentOffer maxNesting p.current = none := if_pos hkind
  rw [document_of_started hstarted]
  change EStateM.bind (repeatWhile _) _ p = _
  rw [EStateM.bind, repeatWhile, rounds_of_none p.items hoffer]
  rfl

theorem Loops.offer_eq_none {offer : Token → Option (Rule α)} {p q : Parser} {values : List α}
    (h : Loops offer p values q) : offer q.current = none := by
  induction h with
  | done hoffer => exact hoffer
  | round _ _ _ ih => exact ih

theorem endOfInput_of_document {p q : Parser} {value : Document} (hstarted : p.started = true) (hdepth : p.depth = 0)
    (h : document p.limits.maxNesting p = .ok value q) : q.current.kind = .endOfInput := by
  rw [document_of_started hstarted] at h
  obtain ⟨components, r, hcomponents, hpure⟩ := bind_eq_ok.mp h
  obtain ⟨rfl, rfl⟩ := pure_eq_ok.mp hpure
  have hroom : p.HasRoom p.limits.maxNesting p.limits.maxExpressionDepth := ⟨by omega, rfl⟩
  have hnone := ((soundRounds_component.repeatWhile_eq_ok hroom).mp hcomponents).offer_eq_none
  unfold componentOffer at hnone
  by_contra hkind
  rw [if_neg hkind] at hnone
  cases hnone

end Rule

namespace Parser

variable {limits : Limits} {items : List Item} {p stopped : Parser} {diagnostic : Diagnostic}

theorem parse_of_ok {value : Document} (h : Rule.document p.limits.maxNesting p = .ok value stopped) :
    p.parse = (.ok value, stopped) := by
  rw [parse, h]

theorem parse_of_error (h : Rule.document p.limits.maxNesting p = .error diagnostic stopped) :
    p.parse = (.error diagnostic, stopped) := by
  rw [parse, h]

theorem snd_parse (p : Parser) : p.parse.2 = leftBy (Rule.document p.limits.maxNesting p) := by
  unfold parse
  split
  next hdocument => rw [hdocument]; rfl
  next hdocument => rw [hdocument]; rfl

/-- The parser after the given number of calls. -/
def called (parser : Parser) : Nat → Parser
  | 0 => parser
  | count + 1 => called parser.parse.2 count

theorem called_succ (p : Parser) (count : Nat) : p.called (count + 1) = (p.called count).parse.2 := by
  induction count generalizing p with
  | zero => rfl
  | succ count ih => exact ih p.parse.2

theorem parses_add (p : Parser) (count more : Nat) :
    p.parses (count + more) = p.parses count ++ (p.called count).parses more := by
  induction count generalizing p with
  | zero => rw [Nat.zero_add]; rfl
  | succ count ih =>
      rw [Nat.succ_add]
      exact congrArg (p.parse.1 :: ·) (ih p.parse.2)

/-- Before the first call and between two calls no bracket is open, and nothing is charged. -/
structure Idle (limits : Limits) (parser : Parser) : Prop where
  limits : parser.limits = limits
  depth : parser.depth = 0
  links : parser.links = 0

theorem Idle.of_restores {q : Parser} (h : p.Idle limits) (hrestores : p.Restores false q) : q.Idle limits :=
  ⟨hrestores.limits.trans h.limits, hrestores.depth.trans h.depth, (hrestores.links rfl).trans h.links⟩

/-- A new parser with its first token ahead. -/
def pulled (limits : Limits) (first : Token) (rest : List Item) : Parser :=
  ⟨limits, rest, first, placeholder, true, 0, 0⟩

/-- A new parser pulls its first token, or stops at what comes in its place. -/
theorem document_ofItems (limits : Limits) (items : List Item) :
    (∃ diagnostic stopped, Rule.document (ofItems limits items).limits.maxNesting (ofItems limits items) =
        .error diagnostic stopped ∧ stopped.Idle limits ∧ stopped.started = true ∧
        stopped.current.kind = .endOfInput) ∨
      ∃ first rest, items = .ok first :: rest ∧
        Rule.document (ofItems limits items).limits.maxNesting (ofItems limits items) =
          Rule.document limits.maxNesting (pulled limits first rest) := by
  cases items with
  | nil => exact .inl ⟨_, _, rfl, ⟨rfl, rfl, rfl⟩, rfl, rfl⟩
  | cons item items =>
      cases item with
      | ok first => exact .inr ⟨first, items, rfl, rfl⟩
      | error diagnostic => exact .inl ⟨diagnostic, _, rfl, ⟨rfl, rfl, rfl⟩, rfl, rfl⟩

/-- A new parser, or one that has been called and is idle. -/
def Primed (limits : Limits) (items : List Item) (parser : Parser) : Prop :=
  parser = ofItems limits items ∨ parser.Idle limits ∧ parser.started = true

/-- Every call leaves the parser idle, whether it answers or stops. -/
theorem Primed.parse (h : p.Primed limits items) : p.parse.2.Idle limits ∧ p.parse.2.started = true := by
  rw [snd_parse]
  rcases h with rfl | ⟨hidle, hstarted⟩
  · rcases document_ofItems limits items with ⟨diagnostic, stopped, hstop, hidle, hstarted, -⟩ |
      ⟨first, rest, -, hfirst⟩
    · rw [hstop]
      exact ⟨hidle, hstarted⟩
    · have hpulled : (pulled limits first rest).Idle limits := ⟨rfl, rfl, rfl⟩
      have hrestores := @Rule.restores_document (pulled limits first rest) rfl limits.maxNesting
      rw [hfirst]
      exact ⟨hpulled.of_restores hrestores, hrestores.started⟩
  · have hrestores := Rule.restores_document hstarted p.limits.maxNesting
    exact ⟨hidle.of_restores hrestores, hrestores.started.trans hstarted⟩

theorem primed_called (limits : Limits) (items : List Item) (count : Nat) :
    ((ofItems limits items).called count).Primed limits items := by
  induction count with
  | zero => exact .inl rfl
  | succ count ih =>
      rw [called_succ]
      exact .inr ih.parse

theorem parse_previous (h : p.started = true) (token : Token) :
    ∃ other, ({ p with previous := token } : Parser).parse = (p.parse.1, { p.parse.2 with previous := other }) := by
  have halike := Rule.alike_document h p.limits.maxNesting token
  unfold parse
  dsimp only
  generalize Rule.document p.limits.maxNesting p = first at halike
  generalize Rule.document p.limits.maxNesting { p with previous := token } = second at halike
  cases halike with
  | ok other => exact ⟨other, rfl⟩
  | error other => exact ⟨other, rfl⟩

/-- The last token taken does not matter to what comes next. -/
theorem parses_previous (h : p.started = true) (token : Token) (more : Nat) :
    ({ p with previous := token } : Parser).parses more = p.parses more := by
  induction more generalizing p token with
  | zero => rfl
  | succ more ih =>
      obtain ⟨other, hother⟩ := parse_previous h token
      have hstarted : p.parse.2.started = true := by
        rw [snd_parse, (Rule.restores_document h p.limits.maxNesting).started, h]
      rw [parses, hother]
      exact congrArg (p.parse.1 :: ·) (ih hstarted other)

/-- An idle parser goes on as a new one would from the token ahead. -/
theorem Idle.parses_eq (h : p.Idle limits) (hstarted : p.started = true) (more : Nat) :
    p.parses more = (ofItems limits p.stream).parses more := by
  obtain ⟨_, items, current, previous, started, depth, links⟩ := p
  obtain ⟨rfl, rfl, rfl⟩ := h
  obtain rfl : started = true := hstarted
  refine (parses_previous rfl placeholder more).symm.trans ?_
  cases more with
  | zero => rfl
  | succ more => rfl

theorem parse_of_endOfInput (hstarted : p.started = true) (hkind : p.current.kind = .endOfInput) :
    p.parse = (.ok ⟨[]⟩, p) :=
  parse_of_ok (Rule.document_of_endOfInput hstarted hkind _)

theorem parse_of_stuck (hstarted : p.started = true) (h : p.Stuck) (hkind : p.current.kind ≠ .endOfInput) :
    ∃ diagnostic, p.parse = (.error diagnostic, p) := by
  obtain ⟨diagnostic, hdocument⟩ := Rule.document_of_stuck hstarted h hkind p.limits.maxNesting
  exact ⟨diagnostic, parse_of_error hdocument⟩

/-- A call that leaves the parser as it is is answered the same over and over. -/
theorem eq_of_mem_parses {outcome : Except Diagnostic Document} (h : p.parse = (outcome, p)) {more : Nat}
    {other : Except Diagnostic Document} (hother : other ∈ p.parses more) : other = outcome := by
  induction more with
  | zero => cases hother
  | succ more ih =>
      rw [parses, h, List.mem_cons] at hother
      exact hother.elim id ih

theorem pulled_arrives {first : Token} {rest : List Item} (h : Yields .text (.ok first :: rest)) :
    Rule.Arrives .text (Rule.document limits.maxNesting (pulled limits first rest)) := by
  have hstands : (pulled limits first rest).StandsIn .text := by
    cases h with
    | token hturn hrest => exact .inr ⟨_, hturn, hrest⟩
  rw [Rule.document_of_started rfl]
  refine Rule.arrives_bind ?_ fun components q hq => .ok hq
  exact Rule.Guided.arrives (@Rule.Guided.components false none limits.maxNesting) nofun hstands

/-- A call on a source ends at the end of input, or it stops where no component begins. -/
theorem ends_of_parse (limits : Limits) (source : String) :
    (ofSource limits source).parse.2.current.kind = .endOfInput ∨ (ofSource limits source).parse.2.Stuck := by
  have hyields : Yields .text (itemsOf source) := (Lexer.ofSource source).yields_items
  rw [snd_parse, ofSource]
  rcases document_ofItems limits (itemsOf source) with ⟨diagnostic, stopped, hstop, -, -, hend⟩ |
    ⟨first, rest, hitems, hfirst⟩
  · rw [hstop]
    exact .inl hend
  · rw [hitems] at hyields
    rw [hfirst]
    have harrives := @pulled_arrives limits _ _ hyields
    cases hdocument : Rule.document limits.maxNesting (pulled limits first rest) with
    | ok value q => exact .inl (@Rule.endOfInput_of_document (pulled limits first rest) q value rfl rfl hdocument)
    | error diagnostic q =>
        rw [hdocument] at harrives
        cases harrives with
        | error hstuck => exact .inr hstuck

/-- A parser that has ended so stays there, call after call. -/
theorem ends_of_called (limits : Limits) (source : String) (count : Nat) :
    ((ofSource limits source).called (count + 1)).current.kind = .endOfInput ∨
      ((ofSource limits source).called (count + 1)).Stuck := by
  induction count with
  | zero => exact ends_of_parse limits source
  | succ count ih =>
      have hstarted : ((ofSource limits source).called (count + 1)).started = true := by
        rw [called_succ]
        exact (primed_called limits (itemsOf source) count).parse.2
      rw [called_succ]
      by_cases hkind : ((ofSource limits source).called (count + 1)).current.kind = .endOfInput
      · rw [parse_of_endOfInput hstarted hkind]
        exact .inl hkind
      · obtain ⟨diagnostic, hparse⟩ := parse_of_stuck hstarted (ih.resolve_left hkind) hkind
        rw [hparse]
        exact ih

/-- After a fault a parser goes on, call after call, as a new one would from the token at which it stopped. At the end
of input that is a document without components each time; at any other token of a source it is the same fault each
time. -/
theorem parses_after_error {count : Nat}
    (h : ((ofItems limits items).called count).parse = (.error diagnostic, stopped)) :
    (∀ more, (ofItems limits items).parses (count + (more + 1)) =
        (ofItems limits items).parses count ++ .error diagnostic :: stopped.parses more ∧
      stopped.parses more = (ofItems limits stopped.stream).parses more) ∧
    (stopped.current.kind = .endOfInput → ∀ more, ∀ outcome ∈ stopped.parses more, outcome = .ok ⟨[]⟩) ∧
    ∀ source, items = itemsOf source → stopped.current.kind ≠ .endOfInput →
      ∃ again, ∀ more, ∀ outcome ∈ stopped.parses more, outcome = .error again := by
  obtain ⟨hidle, hstarted⟩ := (primed_called limits items count).parse
  rw [h] at hidle hstarted
  refine ⟨fun more => ⟨?_, hidle.parses_eq hstarted more⟩, fun hkind more outcome => ?_, ?_⟩
  · rw [parses_add, parses, h]
  · exact eq_of_mem_parses (parse_of_endOfInput hstarted hkind)
  · rintro source rfl hkind
    have hends := ends_of_called limits source count
    rw [called_succ, ofSource, h] at hends
    obtain ⟨again, hparse⟩ := parse_of_stuck hstarted (hends.resolve_left hkind) hkind
    exact ⟨again, fun more outcome => eq_of_mem_parses hparse⟩

theorem parses_after_error_component :
    let parser := ofSource .standard "a <<q>>"
    parser.parse.1 = .error ⟨.unexpectedToken "a", ⟨1, 1⟩⟩ ∧ parser.parse.2.current.kind ≠ .endOfInput ∧
      ∃ again, ∀ more, ∀ outcome ∈ parser.parse.2.parses more, outcome = .error again := by
  intro parser
  have hparse : parser.parse.1 = .error ⟨.unexpectedToken "a", ⟨1, 1⟩⟩ := by cbv
  have hkind : parser.parse.2.current.kind ≠ .endOfInput := by
    have htext : parser.parse.2.current.kind = .textRun := by cbv
    rw [htext]
    exact TokenKind.noConfusion
  have hafter := @parses_after_error .standard (itemsOf "a <<q>>") parser.parse.2 _ 0 (Prod.ext hparse rfl)
  exact ⟨hparse, hkind, hafter.2.2 "a <<q>>" rfl hkind⟩

/-- A fault at the end of input is followed by a document. -/
theorem parses_of_open_attributes :
    (ofSource .standard "<< q1").parses 2 = [.error ⟨.expected ">>" "end of input", ⟨1, 6⟩⟩, .ok ⟨[]⟩] := by
  cbv

end Parser

end Questionnaire
