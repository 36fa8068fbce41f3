import Questionnaire.Proofs.Document.Relocation
import Questionnaire.Proofs.Grammar.Document

/-! Two readings beside each other. The second stream has the tokens of the first in other places, and from some token
on it may go on in another way. As long as the first reading does not look beyond the tokens of both, the two answer
the same but for the places, or stop at the same fault in places that correspond. One lemma for each way to put rules
together carries this from the smallest rules to whole documents. -/

namespace Questionnaire

/-- How a second stream of tokens differs from a first. -/
structure Variation where
  /-- Where the second stream has what the first has at a place. -/
  move : Position → Position
  /-- What the first stream goes on with after the tokens of both. -/
  rest : List Item
  /-- What the second stream goes on with. -/
  rest' : List Item

namespace Parser

/-- The stream is one of tokens that ends with the end of input. -/
def Sealed (parser : Parser) : Prop :=
  ∃ before last, parser.stream = (before ++ [last]).map .ok ∧ last.kind = .endOfInput

/-- The second parser is where the first is, on the other stream. The last tokens taken correspond if one has been
seen. -/
structure Varied (v : Variation) (seen : Prop) (first second : Parser) : Prop where
  items : ∃ tokens : List Token, first.items = tokens.map .ok ++ v.rest ∧
    second.items = tokens.map (fun token => .ok (token.relocate v.move)) ++ v.rest'
  current : second.current = first.current.relocate v.move
  previous : seen → second.previous = first.previous.relocate v.move
  limits : second.limits = first.limits
  depth : second.depth = first.depth
  links : second.links = first.links
  isSealed : first.Sealed

/-- From one parser to a later one. -/
structure Leads (before after : Parser) : Prop where
  items : after.items <:+ before.items
  limits : after.limits = before.limits
  depth : after.depth = before.depth

namespace Leads

variable {p q r : Parser} {room budget : Nat}

protected theorem refl (p : Parser) : p.Leads p := ⟨List.suffix_rfl, rfl, rfl⟩

theorem trans (h : p.Leads q) (h' : q.Leads r) : p.Leads r :=
  ⟨h'.items.trans h.items, h'.limits.trans h.limits, h'.depth.trans h.depth⟩

theorem hasRoom (h : p.Leads q) (hroom : p.HasRoom room budget) : q.HasRoom room budget := by
  rw [HasRoom, h.depth, h.limits]
  exact hroom

end Leads

namespace Varied

variable {v : Variation} {seen : Prop} {p p' q q' : Parser}

/-- The two streams differ in length as what they go on with does. -/
theorem length_items (h : p.Varied v seen p') :
    p'.items.length + v.rest.length = p.items.length + v.rest'.length := by
  obtain ⟨tokens, hitems, hitems'⟩ := h.items
  rw [hitems, hitems', List.length_append, List.length_append, List.length_map, List.length_map]
  omega

theorem length_lt (h : p.Varied v seen p') (hq : q.Varied v seen q') (hlength : q.items.length < p.items.length) :
    q'.items.length < p'.items.length := by
  have hp := h.length_items
  have := hq.length_items
  omega

theorem seen_of_imp {seen' : Prop} (h : p.Varied v seen p') (himp : seen' → seen) : p.Varied v seen' p' :=
  ⟨h.items, h.current, fun hseen => h.previous (himp hseen), h.limits, h.depth, h.links, h.isSealed⟩

end Varied

end Parser

/-- The parser that a reading leaves. -/
def leftBy {α : Type} : EStateM.Result Diagnostic Parser α → Parser
  | .ok _ parser => parser
  | .error _ parser => parser

/-- How two readings may end, unless the first has looked beyond the tokens of both. -/
inductive Agrees {α : Type} (v : Variation) (seen : Prop) (relocate : α → α) :
    EStateM.Result Diagnostic Parser α → EStateM.Result Diagnostic Parser α → Prop where
  | ok {value : α} {first second : Parser} (h : first.Varied v seen second) :
      Agrees v seen relocate (.ok value first) (.ok (relocate value) second)
  | error {fault : Fault} {position : Position} {first second : Parser} :
      Agrees v seen relocate (.error ⟨fault, position⟩ first) (.error ⟨fault, v.move position⟩ second)
  | beyond {first second : EStateM.Result Diagnostic Parser α} (h : (leftBy first).items.length < v.rest.length) :
      Agrees v seen relocate first second

namespace Rule

variable {α β : Type} {v : Variation} {seen seen' seen'' : Prop} {room budget : Nat} {rule rule' : Rule α}
  {p p' q : Parser} {f : α → α} {g : β → β}

/-- The first rule does on the first stream what the second does on the other, and only moves ahead. -/
structure Parallel (v : Variation) (seen seen' : Prop) (room budget : Nat) (f : α → α) (rule rule' : Rule α) :
    Prop where
  leads (p : Parser) : p.HasRoom room budget → p.Leads (leftBy (rule p))
  agrees (p p' : Parser) : p.HasRoom room budget → p.Varied v seen p' → Agrees v seen' f (rule p) (rule' p')

theorem agrees_bind {next next' : α → Rule β} (h : Agrees v seen f (rule p) (rule' p'))
    (hleads : ∀ value q, rule p = .ok value q → q.Leads (leftBy (next value q)))
    (hnext : ∀ value q q', rule p = .ok value q → q.Varied v seen q' →
      Agrees v seen' g (next value q) (next' (f value) q')) :
    Agrees v seen' g ((rule >>= next) p) ((rule' >>= next') p') := by
  change Agrees v seen' g (EStateM.bind rule next p) (EStateM.bind rule' next' p')
  unfold EStateM.bind
  generalize rule p = result at h hleads hnext ⊢
  generalize rule' p' = result' at h ⊢
  cases h with
  | ok hq => exact hnext _ _ _ rfl hq
  | error => exact .error
  | beyond hbeyond =>
      cases result with
      | ok value q => exact .beyond (Nat.lt_of_le_of_lt (hleads value q rfl).items.length_le hbeyond)
      | error diagnostic q => exact .beyond hbeyond

theorem leads_bind {next : α → Rule β} (h : p.Leads (leftBy (rule p)))
    (hnext : ∀ value q, rule p = .ok value q → q.Leads (leftBy (next value q))) :
    p.Leads (leftBy ((rule >>= next) p)) := by
  change p.Leads (leftBy (EStateM.bind rule next p))
  unfold EStateM.bind
  generalize rule p = result at h hnext ⊢
  cases result with
  | ok value q => exact h.trans (hnext value q rfl)
  | error diagnostic q => exact h

namespace Parallel

theorem hasRoom {value : α} (h : Parallel v seen seen' room budget f rule rule') (hroom : p.HasRoom room budget)
    (hrule : rule p = .ok value q) : q.HasRoom room budget := by
  have hleads := (h.leads p hroom).hasRoom hroom
  rwa [hrule] at hleads

theorem seen_of_imp (h : Parallel v seen seen' room budget f rule rule') (himp : seen'' → seen') :
    Parallel v seen seen'' room budget f rule rule' := by
  refine ⟨h.leads, fun p p' hroom hvaried => ?_⟩
  have hagrees := h.agrees p p' hroom hvaried
  generalize rule p = result at hagrees ⊢
  generalize rule' p' = result' at hagrees ⊢
  cases hagrees with
  | ok hq => exact .ok (hq.seen_of_imp himp)
  | error => exact .error
  | beyond hbeyond => exact .beyond hbeyond

end Parallel

theorem parallel_bind {next next' : α → Rule β} (h : Parallel v seen seen' room budget f rule rule')
    (hnext : ∀ value, Parallel v seen' seen'' room budget g (next value) (next' (f value))) :
    Parallel v seen seen'' room budget g (rule >>= next) (rule' >>= next') := by
  refine ⟨fun p hp => ?_, fun p p' hp hvaried => ?_⟩
  · exact leads_bind (h.leads p hp) fun value q hrule => (hnext value).leads q (h.hasRoom hp hrule)
  · exact agrees_bind (h.agrees p p' hp hvaried) (fun value q hrule => (hnext value).leads q (h.hasRoom hp hrule))
      fun value q q' hrule hq => (hnext value).agrees q q' (h.hasRoom hp hrule) hq

theorem parallel_pure {value value' : α} (h : f value = value') :
    Parallel v seen seen room budget f (pure value) (pure value') := by
  subst h
  exact ⟨fun p _ => .refl p, fun _ _ _ h => .ok h⟩

theorem parallel_map {map map' : α → β} (h : Parallel v seen seen' room budget f rule rule')
    (hmap : ∀ value, g (map value) = map' (f value)) :
    Parallel v seen seen' room budget g (map <$> rule) (map' <$> rule') := by
  have hbind : Parallel v seen seen' room budget g (rule >>= fun value => pure (map value))
      (rule' >>= fun value => pure (map' value)) := parallel_bind h fun value => parallel_pure (hmap value)
  rwa [bind_pure_comp, bind_pure_comp] at hbind

theorem parallel_ite {c c' : Prop} [Decidable c] [Decidable c'] {other other' : Rule α} (hc : c ↔ c')
    (h : Parallel v seen seen' room budget f rule rule')
    (hother : Parallel v seen seen' room budget f other other') :
    Parallel v seen seen' room budget f (if c then rule else other) (if c' then rule' else other') := by
  by_cases hholds : c
  · rw [if_pos hholds, if_pos (hc.mp hholds)]
    exact h
  · rw [if_neg hholds, if_neg (mt hc.mpr hholds)]
    exact hother

theorem parallel_refuse (fault : Fault) :
    Parallel v seen seen' room budget f (refuse fault) (refuse fault) := by
  refine ⟨fun p _ => .refl p, fun p p' _ h => ?_⟩
  unfold refuse
  rw [h.current]
  exact .error

theorem parallel_throw (fault : Fault) (position : Position) :
    Parallel v seen seen' room budget f (throw ⟨fault, position⟩) (throw ⟨fault, v.move position⟩) :=
  ⟨fun p _ => .refl p, fun _ _ _ _ => .error⟩

/-- To look at the token ahead takes nothing. -/
theorem parallel_current_bind {next next' : Token → Rule β}
    (h : ∀ token, Parallel v seen seen' room budget g (next token) (next' (token.relocate v.move))) :
    Parallel v seen seen' room budget g (current >>= next) (current >>= next') := by
  refine ⟨fun p hp => (h p.current).leads p hp, fun p p' hp hvaried => ?_⟩
  rw [current_bind, current_bind, hvaried.current]
  exact (h p.current).agrees p p' hp hvaried

theorem parallel_refuseUnexpected : Parallel v seen seen' room budget f refuseUnexpected refuseUnexpected :=
  parallel_current_bind fun token => parallel_refuse (.unexpectedToken token.found)

theorem parallel_spanSince (first : Token) :
    Parallel v True True room budget (Span.relocate v.move) (spanSince first) (spanSince (first.relocate v.move)) := by
  refine ⟨fun p _ => .refl p, fun p p' _ h => ?_⟩
  unfold spanSince
  rw [h.previous trivial]
  exact .ok h

theorem leads_shift (p : Parser) : p.Leads (leftBy (shift p)) := by
  unfold shift fetch
  split
  · exact .refl p
  · cases hitems : p.items with
    | nil => exact .refl p
    | cons item items =>
        cases item with
        | error diagnostic => exact ⟨⟨[.error diagnostic], hitems.symm⟩, rfl, rfl⟩
        | ok token => exact ⟨⟨[.ok token], hitems.symm⟩, rfl, rfl⟩

theorem agrees_shift (h : p.Varied v seen p') (hkind : p.current.kind ≠ .endOfInput) :
    Agrees v True id (shift p) (shift p') := by
  obtain ⟨tokens, hitems, hitems'⟩ := h.items
  obtain ⟨before, last, hstream, hlast⟩ := h.isSealed
  have hkind' : p'.current.kind ≠ .endOfInput := by
    rw [h.current]
    exact hkind
  unfold shift
  rw [if_neg hkind, if_neg hkind']
  cases before with
  | nil =>
      have hcurrent : p.current = last := by simpa [Parser.stream] using (List.cons.inj hstream).1
      exact absurd (hcurrent ▸ hlast) hkind
  | cons current before =>
      have hrest : p.items = (before ++ [last]).map .ok := (List.cons.inj hstream).2
      cases tokens with
      | nil =>
          -- the token that comes next is not one of both
          rw [List.map_nil, List.nil_append] at hitems
          refine .beyond ?_
          unfold fetch
          rw [← hitems, hrest]
          cases before <;> simp [leftBy]
      | cons token tokens =>
          unfold fetch
          rw [hitems, hitems', List.map_cons, List.map_cons, List.cons_append, List.cons_append]
          refine .ok ⟨⟨tokens, rfl, rfl⟩, rfl, fun _ => h.current, h.limits, h.depth, h.links, ?_⟩
          refine ⟨before, last, ?_, hlast⟩
          rw [← hrest, hitems]
          rfl

theorem parallel_shift : Parallel v True True room budget id shift shift := by
  refine ⟨fun p _ => leads_shift p, fun p p' _ h => ?_⟩
  by_cases hkind : p.current.kind = .endOfInput
  · have hkind' : p'.current.kind = .endOfInput := by
      rw [h.current]
      exact hkind
    unfold shift
    rw [if_pos hkind, if_pos hkind']
    exact .ok h
  · exact agrees_shift h hkind

/-- A token that is asked for by its kind may be the first one taken. -/
theorem parallel_expect {kind : TokenKind} (hkind : kind ≠ .endOfInput) :
    Parallel v seen True room budget (Token.relocate v.move) (expect kind) (expect kind) := by
  refine ⟨fun p _ => ?_, fun p p' _ h => ?_⟩
  · rw [expect, current_bind]
    split
    · exact leads_bind (leads_shift p) fun _ q _ => .refl q
    · exact .refl p
  · rw [expect, current_bind, current_bind, h.current, Token.relocate_kind]
    by_cases hcurrent : p.current.kind = kind
    · rw [if_pos hcurrent, if_pos hcurrent]
      exact agrees_bind (agrees_shift h (hcurrent ▸ hkind)) (fun _ q _ => .refl q) fun _ _ _ _ hq => .ok hq
    · rw [if_neg hcurrent, if_neg hcurrent]
      unfold refuse
      rw [h.current]
      exact .error

theorem parallel_expectWord (kind : TokenKind) (word : String) :
    Parallel v True True room budget (Token.relocate v.move) (expectWord kind word) (expectWord kind word) :=
  parallel_current_bind fun _ =>
    parallel_ite .rfl (parallel_bind parallel_shift fun _ => parallel_pure rfl) (parallel_refuse _)

theorem parallel_passWord (kind : TokenKind) (word : String) :
    Parallel v True True room budget id (passWord kind word) (passWord kind word) :=
  parallel_current_bind fun _ =>
    parallel_ite .rfl (parallel_bind parallel_shift fun _ => parallel_pure rfl) (parallel_pure rfl)

theorem parallel_charge : Parallel v seen seen room budget id charge charge := by
  refine ⟨fun p _ => ?_, fun p p' _ h => ?_⟩
  · unfold charge
    split
    · exact .refl p
    · exact ⟨List.suffix_rfl, rfl, rfl⟩
  · unfold charge
    rw [h.limits, h.links]
    split
    · unfold refuse
      rw [h.current]
      exact .error
    · exact .ok ⟨h.items, h.current, h.previous, rfl, h.depth, rfl, h.isSealed⟩

theorem agrees_leaving {exit exit' : Parser → Parser} (h : Agrees v seen f (rule p) (rule' p'))
    (hexit : ∀ q q', q.Varied v seen q' → (exit q).Varied v seen (exit' q'))
    (hitems : ∀ q, (exit q).items = q.items) :
    Agrees v seen f (leaving exit rule p) (leaving exit' rule' p') := by
  unfold leaving
  generalize rule p = result at h ⊢
  generalize rule' p' = result' at h ⊢
  cases h with
  | ok hq => exact .ok (hexit _ _ hq)
  | error => exact .error
  | beyond hbeyond =>
      refine .beyond ?_
      cases result with
      | ok value q => exact hitems q ▸ hbeyond
      | error diagnostic q => exact hitems q ▸ hbeyond

theorem leads_leaving {exit : Parser → Parser} (h : q.Leads (leftBy (rule q)))
    (hexit : ∀ after, q.Leads after → p.Leads (exit after)) : p.Leads (leftBy (leaving exit rule q)) := by
  unfold leaving
  generalize rule q = result at h ⊢
  cases result with
  | ok value after => exact hexit after h
  | error diagnostic after => exact hexit after h

theorem parallel_bracketed
    (h : ∀ below, room = below + 1 → Parallel v seen seen' below budget f rule rule') :
    Parallel v seen seen' room budget f (bracketed rule) (bracketed rule') := by
  have hdeeper {p : Parser} (hroom : p.HasRoom room budget) (hdepth : ¬p.limits.maxNesting ≤ p.depth) :
      room = room - 1 + 1 ∧ Parser.HasRoom { p with depth := p.depth + 1 } (room - 1) budget := by
    have := hroom.1
    refine ⟨by omega, ?_, hroom.2⟩
    dsimp only
    omega
  refine ⟨fun p hroom => ?_, fun p p' hroom hvaried => ?_⟩
  · unfold bracketed
    split
    next => exact .refl p
    next hdepth =>
      obtain ⟨hbelow, hroom'⟩ := hdeeper hroom hdepth
      refine leads_leaving ((h _ hbelow).leads _ hroom') fun after hafter => ⟨hafter.items, hafter.limits, ?_⟩
      dsimp only
      rw [hafter.depth]
      rfl
  · unfold bracketed
    rw [hvaried.limits, hvaried.depth]
    split
    next =>
      unfold refuse
      rw [hvaried.current]
      exact .error
    next hdepth =>
      obtain ⟨hbelow, hroom'⟩ := hdeeper hroom hdepth
      refine agrees_leaving ((h _ hbelow).agrees _ _ hroom' ?_) (fun q q' hq => ?_) fun _ => rfl
      · exact ⟨hvaried.items, hvaried.current, hvaried.previous, rfl, rfl, hvaried.links, hvaried.isSealed⟩
      · exact ⟨hq.items, hq.current, hq.previous, hq.limits, congrArg (· - 1) hq.depth, hq.links, hq.isSealed⟩

theorem parallel_budgeted (h : Parallel v seen seen' room budget f rule rule') :
    Parallel v seen seen' room budget f (budgeted rule) (budgeted rule') := by
  refine ⟨fun p hroom => ?_, fun p p' hroom hvaried => ?_⟩
  · exact leads_leaving (h.leads { p with links := 0 } hroom) fun after hafter =>
      ⟨hafter.items, hafter.limits, hafter.depth⟩
  · refine agrees_leaving (h.agrees _ _ hroom ?_) (fun q q' hq => ?_) fun _ => rfl
    · exact ⟨hvaried.items, hvaried.current, hvaried.previous, hvaried.limits, hvaried.depth, rfl, hvaried.isSealed⟩
    · exact ⟨hq.items, hq.current, hq.previous, hq.limits, hq.depth, hvaried.links, hq.isSealed⟩

/-! Loops. The bounds on the number of rounds differ, and are reached in neither reading. -/

/-- What a loop does after a round. -/
def roundsAfter (offer : Token → Option (Rule α)) : List Item → α → Rule (List α)
  | [], value => return [value]
  | _ :: fuel, value => return value :: (← rounds offer fuel)

theorem rounds_of_none {offer : Token → Option (Rule α)} (fuel : List Item) (h : offer p.current = none) :
    rounds offer fuel p = .ok [] p := by
  cases fuel with
  | nil =>
      rw [rounds, current_bind, h]
      rfl
  | cons item fuel =>
      rw [rounds, current_bind, h]
      rfl

theorem rounds_of_some {offer : Token → Option (Rule α)} (fuel : List Item) (h : offer p.current = some rule) :
    rounds offer fuel p = (rule >>= roundsAfter offer fuel) p := by
  cases fuel with
  | nil =>
      rw [rounds, current_bind, h]
      rfl
  | cons item fuel =>
      rw [rounds, current_bind, h]
      rfl

/-- Both offer a round or neither does. -/
def ParallelOffers (v : Variation) (seen : Prop) (room budget : Nat) (f : α → α)
    (offer offer' : Token → Option (Rule α)) : Prop :=
  ∀ token, Option.Rel (Parallel v seen seen room budget f) (offer token) (offer' (token.relocate v.move))

variable {offer offer' : Token → Option (Rule α)} {derives : α → List Token → Prop} {cost : α → Nat}

theorem ParallelOffers.cases (h : ParallelOffers v seen room budget f offer offer') (token : Token) :
    (offer token = none ∧ offer' (token.relocate v.move) = none) ∨
      ∃ rule rule', offer token = some rule ∧ offer' (token.relocate v.move) = some rule' ∧
        Parallel v seen seen room budget f rule rule' := by
  have htoken := h token
  generalize offer token = offered at htoken ⊢
  generalize offer' (token.relocate v.move) = offered' at htoken ⊢
  cases htoken with
  | none => exact .inl ⟨rfl, rfl⟩
  | some hround => exact .inr ⟨_, _, rfl, rfl, hround⟩

theorem leads_rounds (h : ParallelOffers v seen room budget f offer offer') (fuel : List Item)
    (hroom : p.HasRoom room budget) : p.Leads (leftBy (rounds offer fuel p)) := by
  induction fuel generalizing p with
  | nil =>
      rcases h.cases p.current with ⟨hnone, -⟩ | ⟨rule, rule', hsome, -, hround⟩
      · rw [rounds_of_none _ hnone]
        exact .refl p
      · rw [rounds_of_some _ hsome]
        exact leads_bind (hround.leads p hroom) fun _ q _ => .refl q
  | cons item fuel ih =>
      rcases h.cases p.current with ⟨hnone, -⟩ | ⟨rule, rule', hsome, -, hround⟩
      · rw [rounds_of_none _ hnone]
        exact .refl p
      · rw [rounds_of_some _ hsome]
        refine leads_bind (hround.leads p hroom) fun value q hrule => ?_
        exact leads_bind (ih (hround.hasRoom hroom hrule)) fun _ q _ => .refl q

theorem agrees_rounds (h : ParallelOffers v seen room budget f offer offer')
    (hsound : SoundRounds room budget derives cost offer) {fuel fuel' : List Item} (hroom : p.HasRoom room budget)
    (hvaried : p.Varied v seen p') (hfuel : p.items.length ≤ fuel.length)
    (hfuel' : p'.items.length ≤ fuel'.length) :
    Agrees v seen (List.map f) (rounds offer fuel p) (rounds offer' fuel' p') := by
  induction fuel generalizing p p' fuel' with
  | nil =>
      rcases h.cases p.current with ⟨hnone, hnone'⟩ | ⟨rule, rule', hsome, hsome', hround⟩
      · rw [← hvaried.current] at hnone'
        rw [rounds_of_none _ hnone, rounds_of_none _ hnone']
        exact .ok hvaried
      · -- a round would have to take an item where there is none
        rw [← hvaried.current] at hsome'
        have hstuck {value q} (hrule : rule p = .ok value q) : False := by
          obtain ⟨first, tokens, htakes, -⟩ := hsound p rule value q hroom hsome hrule
          have := htakes.length_items
          rw [List.length_cons] at this
          rw [List.length_nil] at hfuel
          omega
        rw [rounds_of_some _ hsome, rounds_of_some _ hsome']
        exact agrees_bind (hround.agrees p p' hroom hvaried) (fun _ _ hrule => (hstuck hrule).elim)
          fun _ _ _ hrule _ => (hstuck hrule).elim
  | cons item fuel ih =>
      rcases h.cases p.current with ⟨hnone, hnone'⟩ | ⟨rule, rule', hsome, hsome', hround⟩
      · rw [← hvaried.current] at hnone'
        rw [rounds_of_none _ hnone, rounds_of_none _ hnone']
        exact .ok hvaried
      · rw [← hvaried.current] at hsome'
        rw [rounds_of_some _ hsome, rounds_of_some _ hsome']
        refine agrees_bind (hround.agrees p p' hroom hvaried) (fun value q hrule => ?_) fun value q q' hrule hq => ?_
        · exact leads_bind (leads_rounds h fuel (hround.hasRoom hroom hrule)) fun _ q _ => .refl q
        obtain ⟨first, tokens, htakes, -⟩ := hsound p rule value q hroom hsome hrule
        have hlength := htakes.length_items
        rw [List.length_cons] at hlength
        rw [List.length_cons] at hfuel
        have hlength' := hvaried.length_lt hq (by omega)
        cases fuel' with
        | nil =>
            rw [List.length_nil] at hfuel'
            omega
        | cons item' fuel' =>
            rw [List.length_cons] at hfuel'
            refine agrees_bind (ih (hround.hasRoom hroom hrule) hq (by omega) (by omega)) (fun _ q _ => .refl q) ?_
            exact fun _ _ _ _ hr => .ok hr

theorem parallel_repeatWhile (h : ParallelOffers v seen room budget f offer offer')
    (hsound : SoundRounds room budget derives cost offer) :
    Parallel v seen seen room budget (List.map f) (repeatWhile offer) (repeatWhile offer') :=
  ⟨fun p hroom => leads_rounds h p.items hroom,
    fun _ _ hroom hvaried => agrees_rounds h hsound hroom hvaried (Nat.le_refl _) (Nat.le_refl _)⟩

end Rule

end Questionnaire
