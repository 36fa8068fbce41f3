import Questionnaire.Proofs.Grammar.Derivation

/-! How a parser moves along its tokens. A rule that answers has taken some tokens from the front of the stream and
charged for some of them; the counter of open brackets is as it was. The main statements say for each of the small
rules exactly when it answers, and which tokens it has then taken. -/

namespace Questionnaire

theorem getLastD_append {α : Type} (left right : List α) (default : α) :
    (left ++ right).getLastD default = right.getLastD (left.getLastD default) := by
  induction left generalizing default with
  | nil => rfl
  | cons first left ih => rw [List.cons_append, List.getLastD_cons, List.getLastD_cons, ih]

namespace Parser

/-- The token ahead and what the supplier has yet to yield. -/
def stream (parser : Parser) : List Item := .ok parser.current :: parser.items

/-- How many brackets may still be opened, and how many operators and members one expression may hold. -/
def HasRoom (parser : Parser) (room budget : Nat) : Prop :=
  parser.depth + room = parser.limits.maxNesting ∧ parser.limits.maxExpressionDepth = budget

/-- From one parser to another by taking the tokens, with a charge for some of them. -/
structure Takes (before : Parser) (tokens : List Token) (cost : Nat) (after : Parser) : Prop where
  stream : before.stream = tokens.map .ok ++ after.stream
  previous : after.previous = tokens.getLastD before.previous
  links : after.links = before.links + cost
  budget : cost ≠ 0 → after.links ≤ after.limits.maxExpressionDepth
  limits : after.limits = before.limits
  depth : after.depth = before.depth
  started : after.started = before.started

namespace Takes

variable {p q r : Parser} {tokens others : List Token} {token : Token} {cost price room budget : Nat}

protected theorem refl (p : Parser) : p.Takes [] 0 p := ⟨rfl, rfl, rfl, by simp, rfl, rfl, rfl⟩

theorem current_eq (h : p.Takes (token :: tokens) cost q) : p.current = token := by
  have := h.stream
  simp only [Parser.stream, List.map_cons, List.cons_append, List.cons.injEq, Except.ok.injEq] at this
  exact this.1

theorem length_items (h : p.Takes tokens cost q) : p.items.length = tokens.length + q.items.length := by
  have := congrArg List.length h.stream
  simp only [Parser.stream, List.length_cons, List.length_append, List.length_map] at this
  omega

theorem hasRoom (h : p.Takes tokens cost q) (hroom : p.HasRoom room budget) : q.HasRoom room budget := by
  rw [HasRoom, h.depth, h.limits]
  exact hroom

theorem current_eq_headD (h : p.Takes tokens cost q) : p.current = tokens.headD q.current := by
  cases tokens with
  | nil =>
      have := h.stream
      simp only [Parser.stream, List.map_nil, List.nil_append, List.cons.injEq, Except.ok.injEq] at this
      exact this.1
  | cons token tokens => exact h.current_eq

theorem current_of_mem_head (h : p.Takes tokens cost q) (hhead : token ∈ tokens.head?) : p.current = token := by
  rw [h.current_eq_headD, List.headD_eq_head?_getD, hhead, Option.getD_some]

/-- What holds of the token behind the taken ones and of the first of them holds of the one ahead. -/
theorem current_of_head {P : Token → Prop} (h : p.Takes tokens cost q) (hhead : ∀ first ∈ tokens.head?, P first)
    (hcurrent : P q.current) : P p.current := by
  rw [h.current_eq_headD]
  cases tokens with
  | nil => exact hcurrent
  | cons token tokens => exact hhead token rfl

/-- The span since the first of the tokens taken. -/
theorem span_eq (h : p.Takes (token :: tokens) cost q) : (⟨token, q.previous⟩ : Span) = .over token tokens := by
  rw [h.previous, List.getLastD_cons, Span.over]

theorem trans (h : p.Takes tokens cost q) (h' : q.Takes others price r) :
    p.Takes (tokens ++ others) (cost + price) r where
  stream := by rw [h.stream, h'.stream, List.map_append, List.append_assoc]
  previous := by rw [h'.previous, h.previous, getLastD_append]
  links := by rw [h'.links, h.links, Nat.add_assoc]
  budget hne := by
    by_cases hprice : price = 0
    · rw [h'.links, h'.limits, hprice]
      exact h.budget (by omega)
    · exact h'.budget hprice
  limits := h'.limits.trans h.limits
  depth := h'.depth.trans h.depth
  started := h'.started.trans h.started

/-- The parser between two stretches of tokens. -/
theorem split (h : p.Takes (tokens ++ others) (cost + price) r) :
    ∃ q, p.Takes tokens cost q ∧ q.Takes others price r := by
  have hlinks := h.links
  obtain ⟨current, items, hrest⟩ : ∃ current items, others.map .ok ++ r.stream = Except.ok current :: items := by
    cases others with
    | nil => exact ⟨r.current, r.items, rfl⟩
    | cons current others => exact ⟨current, _, rfl⟩
  refine ⟨{ r with current, items, previous := tokens.getLastD p.previous, links := p.links + cost }, ?_, ?_⟩
  · refine ⟨?_, rfl, rfl, fun hne => ?_, h.limits, h.depth, h.started⟩
    · rw [h.stream, List.map_append, List.append_assoc, hrest]
      rfl
    · have := h.budget (by omega)
      dsimp only
      omega
  · refine ⟨hrest.symm, ?_, ?_, fun hne => h.budget (by omega), rfl, rfl, rfl⟩
    · rw [h.previous, getLastD_append]
    · dsimp only
      omega

theorem cons (h : p.Takes [token] 0 q) (h' : q.Takes tokens cost r) : p.Takes (token :: tokens) cost r := by
  rw [← Nat.zero_add cost]
  exact h.trans h'

theorem uncons (h : p.Takes (token :: tokens) cost r) : ∃ q, p.Takes [token] 0 q ∧ q.Takes tokens cost r := by
  rw [← Nat.zero_add cost] at h
  exact h.split

theorem unsnoc (h : p.Takes (tokens ++ [token]) cost r) : ∃ q, p.Takes tokens cost q ∧ q.Takes [token] 0 r := by
  rw [← Nat.add_zero cost] at h
  exact h.split

theorem split_zero (h : p.Takes (tokens ++ others) 0 r) : ∃ q, p.Takes tokens 0 q ∧ q.Takes others 0 r := by
  rw [← Nat.add_zero 0] at h
  exact h.split

theorem uncharge (h : p.Takes tokens (1 + cost) r) :
    ∃ q, p.current = q.current ∧ p.Takes [] 1 q ∧ q.Takes tokens cost r := by
  rw [← List.nil_append tokens] at h
  obtain ⟨q, hcharged, htakes⟩ := h.split
  exact ⟨q, hcharged.current_eq_headD, hcharged, htakes⟩

/-- The tokens and the charge determine where the parser comes to. -/
theorem unique (h : p.Takes tokens cost q) (h' : p.Takes tokens cost r) : q = r := by
  have hstream := List.append_cancel_left (h.stream.symm.trans h'.stream)
  simp only [Parser.stream, List.cons.injEq, Except.ok.injEq] at hstream
  have hprevious := h.previous.trans h'.previous.symm
  have hlinks := h.links.trans h'.links.symm
  have hlimits := h.limits.trans h'.limits.symm
  have hdepth := h.depth.trans h'.depth.symm
  have hstarted := h.started.trans h'.started.symm
  cases q
  cases r
  simp_all

end Takes

end Parser

namespace Rule

open Questionnaire.Parser (Takes)

variable {α β : Type} {p q r : Parser} {token first : Token} {kind : TokenKind} {word : String} {fault : Fault}
  {room budget : Nat}

theorem bind_eq_ok {rule : Rule α} {next : α → Rule β} {answer : β} :
    (rule >>= next) p = .ok answer r ↔ ∃ value q, rule p = .ok value q ∧ next value q = .ok answer r := by
  change EStateM.bind rule next p = _ ↔ _
  unfold EStateM.bind
  cases rule p with
  | ok value q => exact ⟨fun h => ⟨value, q, rfl, h⟩, fun ⟨_, _, hrule, h⟩ => by cases hrule; exact h⟩
  | error diagnostic q => simp

theorem pure_eq_ok {value answer : α} : (pure value : Rule α) p = .ok answer q ↔ value = answer ∧ p = q := by
  change EStateM.Result.ok value p = _ ↔ _
  simp

theorem map_eq_ok {rule : Rule α} {f : α → β} {answer : β} :
    (f <$> rule) p = .ok answer q ↔ ∃ value, rule p = .ok value q ∧ f value = answer := by
  change EStateM.map f rule p = _ ↔ _
  unfold EStateM.map
  cases rule p with
  | ok value q' =>
      constructor
      · intro h
        cases h
        exact ⟨value, rfl, rfl⟩
      · rintro ⟨_, hrule, rfl⟩
        cases hrule
        rfl
  | error diagnostic q' => simp

theorem refuse_ne_ok {value : α} : refuse fault p ≠ .ok value q := by
  intro h
  cases h

theorem refuseUnexpected_ne_ok {value : α} : refuseUnexpected p ≠ .ok value q := by
  intro h
  cases h

/-- Any token but the end of input is taken if another one comes after it. -/
theorem shift_eq_ok (h : p.current.kind ≠ .endOfInput) : shift p = .ok () q ↔ p.Takes [p.current] 0 q := by
  unfold shift fetch
  rw [if_neg h]
  constructor
  · intro hshift
    cases hitems : p.items with
    | nil =>
        rw [hitems] at hshift
        cases hshift
    | cons item items =>
        rw [hitems] at hshift
        cases item with
        | error => cases hshift
        | ok token =>
            cases hshift
            exact ⟨by simp [Parser.stream, hitems], rfl, rfl, by simp, rfl, rfl, rfl⟩
  · intro htakes
    have hitems : p.items = q.stream := by
      have := htakes.stream
      simp only [Parser.stream, List.map_cons, List.map_nil, List.cons_append, List.nil_append] at this
      exact (List.cons.inj this).2
    rw [hitems, Parser.stream]
    have hpassed : p.Takes [p.current] 0 { p with items := q.items, current := q.current, previous := p.current } :=
      ⟨by simp [Parser.stream, hitems], rfl, rfl, by simp, rfl, rfl, rfl⟩
    rw [htakes.unique hpassed]

theorem current_bind (next : Token → Rule β) : (current >>= next) p = next p.current p := rfl

theorem spanSince_bind (next : Span → Rule β) : (spanSince first >>= next) p = next ⟨first, p.previous⟩ p := rfl

theorem shift_bind_eq_ok {next : Unit → Rule β} {answer : β} (h : p.current.kind ≠ .endOfInput) :
    (shift >>= next) p = .ok answer r ↔ ∃ q, p.Takes [p.current] 0 q ∧ next () q = .ok answer r := by
  rw [bind_eq_ok]
  constructor
  · rintro ⟨_, q, hshift, hnext⟩
    exact ⟨q, (shift_eq_ok h).mp hshift, hnext⟩
  · rintro ⟨q, htakes, hnext⟩
    exact ⟨_, q, (shift_eq_ok h).mpr htakes, hnext⟩

theorem shift_bind_of_takes {next : Unit → Rule β} {answer : β} (hkind : token.kind ≠ .endOfInput)
    (htakes : p.Takes [token] 0 q) (h : next () q = .ok answer r) : (shift >>= next) p = .ok answer r := by
  obtain rfl := htakes.current_eq
  exact (shift_bind_eq_ok hkind).mpr ⟨q, htakes, h⟩

theorem expect_eq_ok (hkind : kind ≠ .endOfInput) :
    expect kind p = .ok token q ↔ token.kind = kind ∧ p.Takes [token] 0 q := by
  rw [expect, current_bind]
  constructor
  · intro h
    split at h
    next hcurrent =>
      obtain ⟨q', htakes, hpure⟩ := (shift_bind_eq_ok (hcurrent ▸ hkind)).mp h
      obtain ⟨rfl, rfl⟩ := pure_eq_ok.mp hpure
      exact ⟨hcurrent, htakes⟩
    · cases refuse_ne_ok h
  · rintro ⟨rfl, htakes⟩
    obtain rfl := htakes.current_eq
    rw [if_pos rfl]
    exact (shift_bind_eq_ok hkind).mpr ⟨q, htakes, pure_eq_ok.mpr ⟨rfl, rfl⟩⟩

theorem expect_bind_eq_ok {next : Token → Rule β} {answer : β} (hkind : kind ≠ .endOfInput) :
    (expect kind >>= next) p = .ok answer r ↔
      ∃ token q, token.kind = kind ∧ p.Takes [token] 0 q ∧ next token q = .ok answer r := by
  simp only [bind_eq_ok, expect_eq_ok hkind, and_assoc]

theorem expectWord_eq_ok (hkind : kind ≠ .endOfInput) :
    expectWord kind word p = .ok token q ↔ token.spells kind word = true ∧ p.Takes [token] 0 q := by
  rw [expectWord, current_bind]
  constructor
  · intro h
    split at h
    next hcurrent =>
      obtain ⟨q', htakes, hpure⟩ := (shift_bind_eq_ok ((Token.spells_iff.mp hcurrent).1 ▸ hkind)).mp h
      obtain ⟨rfl, rfl⟩ := pure_eq_ok.mp hpure
      exact ⟨hcurrent, htakes⟩
    · cases refuse_ne_ok h
  · rintro ⟨hspells, htakes⟩
    obtain rfl := htakes.current_eq
    rw [if_pos hspells]
    exact (shift_bind_eq_ok ((Token.spells_iff.mp hspells).1 ▸ hkind)).mpr ⟨q, htakes, pure_eq_ok.mpr ⟨rfl, rfl⟩⟩

theorem expectWord_bind_eq_ok {next : Token → Rule β} {answer : β} (hkind : kind ≠ .endOfInput) :
    (expectWord kind word >>= next) p = .ok answer r ↔
      ∃ token q, token.spells kind word = true ∧ p.Takes [token] 0 q ∧ next token q = .ok answer r := by
  simp only [bind_eq_ok, expectWord_eq_ok hkind, and_assoc]

/-- A word that may stand ahead is taken if it does. -/
theorem passWord_bind_eq_ok {next : Bool → Rule β} {answer : β} (hkind : kind ≠ .endOfInput) :
    (passWord kind word >>= next) p = .ok answer r ↔
      (∃ token q, token.spells kind word = true ∧ p.Takes [token] 0 q ∧ next true q = .ok answer r) ∨
        (p.current.spells kind word = false ∧ next false p = .ok answer r) := by
  rw [bind_eq_ok, passWord]
  simp only [current_bind]
  cases hspells : p.current.spells kind word with
  | true =>
      simp only [if_true, shift_bind_eq_ok ((Token.spells_iff.mp hspells).1 ▸ hkind), pure_eq_ok]
      constructor
      · rintro ⟨_, _, ⟨_, htakes, rfl, rfl⟩, hnext⟩
        exact .inl ⟨_, _, hspells, htakes, hnext⟩
      · rintro (⟨token, q, _, htakes, hnext⟩ | ⟨hfalse, _⟩)
        · rw [← htakes.current_eq] at htakes
          exact ⟨_, _, ⟨_, htakes, rfl, rfl⟩, hnext⟩
        · cases hfalse
  | false =>
      rw [if_neg (by simp)]
      simp only [pure_eq_ok]
      constructor
      · rintro ⟨_, _, ⟨rfl, rfl⟩, hnext⟩
        exact .inr ⟨trivial, hnext⟩
      · rintro (⟨token, q, htrue, htakes, _⟩ | ⟨_, hnext⟩)
        · rw [htakes.current_eq, htrue] at hspells
          cases hspells
        · exact ⟨_, _, ⟨rfl, rfl⟩, hnext⟩

theorem charge_eq_ok : charge p = .ok () q ↔ p.Takes [] 1 q := by
  unfold charge
  constructor
  · intro h
    split at h
    · cases h
    next hlinks =>
      cases h
      exact ⟨rfl, rfl, rfl, fun _ => by dsimp only; omega, rfl, rfl, rfl⟩
  · intro htakes
    have hbudget := htakes.budget (by simp)
    have hlinks := htakes.links
    rw [htakes.limits] at hbudget
    rw [if_neg (by omega)]
    have hcharged : p.Takes [] 1 { p with links := p.links + 1 } :=
      ⟨rfl, rfl, rfl, fun _ => by dsimp only; omega, rfl, rfl, rfl⟩
    rw [htakes.unique hcharged]

theorem leaving_eq_ok {exit : Parser → Parser} {rule : Rule α} {answer : α} :
    leaving exit rule p = .ok answer r ↔ ∃ q, rule p = .ok answer q ∧ exit q = r := by
  unfold leaving
  cases rule p with
  | ok value q =>
      constructor
      · intro h
        cases h
        exact ⟨q, rfl, rfl⟩
      · rintro ⟨_, hrule, rfl⟩
        cases hrule
        rfl
  | error diagnostic q => simp

theorem charge_bind_eq_ok {next : Unit → Rule β} {answer : β} :
    (charge >>= next) p = .ok answer r ↔ ∃ q, p.Takes [] 1 q ∧ next () q = .ok answer r := by
  rw [bind_eq_ok]
  constructor
  · rintro ⟨_, q, hcharge, hnext⟩
    exact ⟨q, charge_eq_ok.mp hcharge, hnext⟩
  · rintro ⟨q, htakes, hnext⟩
    exact ⟨_, q, charge_eq_ok.mpr htakes, hnext⟩

/-- A rule between brackets answers only where a bracket may be opened, and then takes the tokens that it takes
with one bracket more. -/
theorem takes_of_bracketed {rule : Rule α} {answer : α} (h : bracketed rule p = .ok answer r)
    (hroom : p.HasRoom room budget) :
    ∃ below p' q, room = below + 1 ∧ p'.HasRoom below budget ∧ p'.current = p.current ∧ rule p' = .ok answer q ∧
      ∀ tokens cost, p'.Takes tokens cost q → p.Takes tokens cost r := by
  unfold bracketed at h
  split at h
  · cases refuse_ne_ok h
  next hdepth =>
    obtain ⟨q, hrule, rfl⟩ := leaving_eq_ok.mp h
    refine ⟨room - 1, { p with depth := p.depth + 1 }, q, ?_, ?_, rfl, hrule, ?_⟩
    · have := hroom.1
      omega
    · have := hroom.1
      refine ⟨?_, hroom.2⟩
      dsimp only
      omega
    · intro tokens cost htakes
      refine ⟨htakes.stream, htakes.previous, htakes.links, htakes.budget, htakes.limits, ?_, htakes.started⟩
      rw [htakes.depth]
      rfl

/-- A rule with a budget of its own leaves the charges of its surroundings alone, and stays within the limit. -/
theorem takes_of_budgeted {rule : Rule α} {answer : α} (h : budgeted rule p = .ok answer r)
    (hroom : p.HasRoom room budget) :
    ∃ p' q, p'.HasRoom room budget ∧ rule p' = .ok answer q ∧
      ∀ tokens cost, p'.Takes tokens cost q → p.Takes tokens 0 r ∧ cost ≤ budget := by
  obtain ⟨q, hrule, rfl⟩ := leaving_eq_ok.mp h
  refine ⟨{ p with links := 0 }, q, hroom, hrule, fun tokens cost htakes => ⟨?_, ?_⟩⟩
  · exact ⟨htakes.stream, htakes.previous, rfl, by simp, htakes.limits, htakes.depth, htakes.started⟩
  · by_cases hcost : cost = 0
    · omega
    · have hbudget := htakes.budget hcost
      have hlinks := htakes.links
      rw [htakes.limits] at hbudget
      have hmax := hroom.2
      dsimp only at hbudget hlinks
      omega

/-- The rounds of a loop, from the first to the last. -/
inductive Loops (offer : Token → Option (Rule α)) : Parser → List α → Parser → Prop where
  | done {p : Parser} (hoffer : offer p.current = none) : Loops offer p [] p
  | round {p q r : Parser} {rule : Rule α} {value : α} {values : List α} (hoffer : offer p.current = some rule)
      (hround : rule p = .ok value q) : Loops offer q values r → Loops offer p (value :: values) r

theorem rounds_eq_ok_of_none {offer : Token → Option (Rule α)} {fuel : List Item} {values : List α}
    (hoffer : offer p.current = none) : rounds offer fuel p = .ok values r ↔ Loops offer p values r := by
  have hnil : rounds offer fuel p = .ok [] p := by
    cases fuel with
    | nil =>
        rw [rounds, current_bind, hoffer]
        rfl
    | cons item fuel =>
        rw [rounds, current_bind, hoffer]
        rfl
  rw [hnil]
  constructor
  · intro h
    cases h
    exact .done hoffer
  · intro h
    cases h with
    | done => rfl
    | round hsome => rw [hoffer] at hsome; cases hsome

/-- Where every round takes an item, the bound on the number of rounds is never reached. -/
theorem repeatWhile_eq_ok {offer : Token → Option (Rule α)} {inv : Parser → Prop} {values : List α}
    (hround : ∀ p rule value q, inv p → offer p.current = some rule → rule p = .ok value q →
      inv q ∧ q.items.length < p.items.length) (hinv : inv p) :
    repeatWhile offer p = .ok values r ↔ Loops offer p values r := by
  have hrounds (fuel : List Item) (p : Parser) (values : List α) (hinv : inv p)
      (hfuel : p.items.length ≤ fuel.length) : rounds offer fuel p = .ok values r ↔ Loops offer p values r := by
    induction fuel generalizing p values with
    | nil =>
        cases hoffer : offer p.current with
        | none => exact rounds_eq_ok_of_none hoffer
        | some rule =>
            -- a round would have to take an item where there is none
            have hstuck {value q} (hrule : rule p = .ok value q) : False := by
              have := (hround _ _ _ _ hinv hoffer hrule).2
              rw [List.length_nil] at hfuel
              omega
            rw [rounds, current_bind, hoffer]
            constructor
            · intro h
              obtain ⟨_, _, hrule, -⟩ := bind_eq_ok.mp h
              exact (hstuck hrule).elim
            · intro h
              cases h with
              | done hnone => rw [hoffer] at hnone; cases hnone
              | round hsome hrule =>
                  rw [hoffer] at hsome
                  cases hsome
                  exact (hstuck hrule).elim
    | cons item fuel ih =>
        cases hoffer : offer p.current with
        | none => exact rounds_eq_ok_of_none hoffer
        | some rule =>
            have hrest {value q} (hrule : rule p = .ok value q) (values : List α) :
                rounds offer fuel q = .ok values r ↔ Loops offer q values r := by
              obtain ⟨hinv, hlength⟩ := hround _ _ _ _ hinv hoffer hrule
              refine ih q values hinv ?_
              rw [List.length_cons] at hfuel
              omega
            rw [rounds, current_bind, hoffer]
            constructor
            · intro h
              simp only [bind_eq_ok, pure_eq_ok] at h
              obtain ⟨_, _, hrule, _, _, hloops, rfl, rfl⟩ := h
              exact .round hoffer hrule ((hrest hrule _).mp hloops)
            · intro h
              cases h with
              | done hnone => rw [hoffer] at hnone; cases hnone
              | round hsome hrule hloops =>
                  rw [hoffer] at hsome
                  cases hsome
                  simp only [bind_eq_ok, pure_eq_ok]
                  exact ⟨_, _, hrule, _, _, (hrest hrule _).mpr hloops, rfl, rfl⟩
  exact hrounds p.items p values hinv (Nat.le_refl _)

/-- Whatever the rule answers is derived from the tokens that it takes, for which the answer is charged. -/
def Sound (room budget : Nat) (derives : α → List Token → Prop) (cost : α → Nat) (rule : Rule α) : Prop :=
  ∀ p value q, p.HasRoom room budget → rule p = .ok value q →
    ∃ tokens, p.Takes tokens (cost value) q ∧ derives value tokens

/-- The rule answers the value wherever the tokens come next, and after them one that ends them. -/
def Complete (room budget : Nat) (tokens : List Token) (cost : Nat) (ends : Token → Prop) (rule : Rule α)
    (value : α) : Prop :=
  ∀ p q, p.HasRoom room budget → p.Takes tokens cost q → ends q.current → rule p = .ok value q

theorem complete_bracketed {rule : Rule α} {value : α} {tokens : List Token} {cost : Nat} {ends : Token → Prop}
    (h : Complete room budget tokens cost ends rule value) :
    Complete (room + 1) budget tokens cost ends (bracketed rule) value := by
  intro p r hroom htakes hends
  have hdepth := hroom.1
  unfold bracketed
  rw [if_neg (by omega)]
  refine leaving_eq_ok.mpr ⟨{ r with depth := r.depth + 1 }, h _ _ ?_ ?_ hends, rfl⟩
  · refine ⟨?_, hroom.2⟩
    dsimp only
    omega
  · exact ⟨htakes.stream, htakes.previous, htakes.links, htakes.budget, htakes.limits,
      congrArg (· + 1) htakes.depth, htakes.started⟩

theorem complete_budgeted {rule : Rule α} {value : α} {tokens : List Token} {cost : Nat} {ends : Token → Prop}
    (hcost : cost ≤ budget) (h : Complete room budget tokens cost ends rule value) :
    Complete room budget tokens 0 ends (budgeted rule) value := by
  intro p r hroom htakes hends
  have hlinks := htakes.links
  refine leaving_eq_ok.mpr ⟨{ r with links := cost }, h { p with links := 0 } _ hroom ?_ hends, ?_⟩
  · refine ⟨htakes.stream, htakes.previous, (Nat.zero_add cost).symm, fun _ => ?_, htakes.limits, htakes.depth,
      htakes.started⟩
    rw [htakes.limits, hroom.2]
    exact hcost
  · rw [Nat.add_zero] at hlinks
    rw [← hlinks]

/-- Every round that the loop offers is sound, and takes a token. -/
def SoundRounds (room budget : Nat) (derives : α → List Token → Prop) (cost : α → Nat)
    (offer : Token → Option (Rule α)) : Prop :=
  ∀ p rule value q, p.HasRoom room budget → offer p.current = some rule → rule p = .ok value q →
    ∃ first tokens, p.Takes (first :: tokens) (cost value) q ∧ derives value (first :: tokens)

variable {derives : α → List Token → Prop} {cost : α → Nat} {offer : Token → Option (Rule α)} {values : List α}
  {tokens : List Token}

namespace SoundRounds

theorem repeatWhile_eq_ok (h : SoundRounds room budget derives cost offer) (hroom : p.HasRoom room budget) :
    repeatWhile offer p = .ok values q ↔ Loops offer p values q := by
  have hround (p : Parser) (rule : Rule α) (value : α) (q : Parser) (hroom : p.HasRoom room budget)
      (hoffer : offer p.current = some rule) (hrule : rule p = .ok value q) :
      q.HasRoom room budget ∧ q.items.length < p.items.length := by
    obtain ⟨first, tokens, htakes, -⟩ := h p rule value q hroom hoffer hrule
    have := htakes.length_items
    rw [List.length_cons] at this
    exact ⟨htakes.hasRoom hroom, by omega⟩
  exact Rule.repeatWhile_eq_ok hround hroom

/-- The rounds take one stretch of tokens after another. -/
theorem exists_series (h : SoundRounds room budget derives cost offer) (hroom : p.HasRoom room budget)
    (hloops : Loops offer p values q) :
    ∃ tokens, p.Takes tokens (total cost values) q ∧ Series derives values tokens := by
  induction hloops with
  | done => exact ⟨[], Takes.refl _, .nil⟩
  | round hoffer hrule _ ih =>
      obtain ⟨first, tokens, htakes, hderives⟩ := h _ _ _ _ hroom hoffer hrule
      obtain ⟨rest, hrest, hseries⟩ := ih (htakes.hasRoom hroom)
      exact ⟨_, htakes.trans hrest, .cons hderives hseries⟩

theorem sound_repeatWhile (h : SoundRounds room budget derives cost offer) :
    Sound room budget (Series derives) (total cost) (repeatWhile offer) := fun _ _ _ hroom hrule =>
  h.exists_series hroom ((h.repeatWhile_eq_ok hroom).mp hrule)

/-- A loop answers all of the values that are derived one after another, if what follows each of them ends it and
what follows the last ends the loop too. -/
theorem complete_repeatWhile (ends : Token → Prop) (h : SoundRounds room budget derives cost offer)
    (hround : ∀ p value tokens q, p.HasRoom room budget → derives value tokens → p.Takes tokens (cost value) q →
      ends q.current → ∃ rule, offer p.current = some rule ∧ rule p = .ok value q)
    (hhead : ∀ value tokens, derives value tokens → ∀ first ∈ tokens.head?, ends first)
    (hseries : Series derives values tokens) :
    Complete room budget tokens (total cost values) (fun token => ends token ∧ offer token = none)
      (repeatWhile offer) values := by
  intro p q hroom htakes hends
  rw [h.repeatWhile_eq_ok hroom]
  induction hseries generalizing p with
  | nil =>
      obtain rfl := htakes.unique (Takes.refl p)
      exact .done hends.2
  | cons hvalue hseries ih =>
      obtain ⟨r, hfirst, hrest⟩ := htakes.split
      obtain ⟨rule, hoffer, hrule⟩ := hround p _ _ r hroom hvalue hfirst
        (hrest.current_of_head (hseries.head hhead) hends.1)
      exact .round hoffer hrule (ih r (hfirst.hasRoom hroom) hrest)

/-! Rounds that cost nothing, one by one and together. -/

theorem sound_repeatWhile_free (h : SoundRounds room budget derives (fun _ => 0) offer) :
    Sound room budget (Series derives) (fun _ => 0) (repeatWhile offer) := by
  intro p values q hroom hrule
  obtain ⟨tokens, htokens, hseries⟩ := h.sound_repeatWhile p values q hroom hrule
  rw [total_eq_zero] at htokens
  exact ⟨tokens, htokens, hseries⟩

theorem complete_repeatWhile_free (ends : Token → Prop) (h : SoundRounds room budget derives (fun _ => 0) offer)
    (hround : ∀ p value tokens q, p.HasRoom room budget → derives value tokens → p.Takes tokens 0 q →
      ends q.current → ∃ rule, offer p.current = some rule ∧ rule p = .ok value q)
    (hhead : ∀ value tokens, derives value tokens → ∀ first ∈ tokens.head?, ends first)
    (hseries : Series derives values tokens) :
    Complete room budget tokens 0 (fun token => ends token ∧ offer token = none) (repeatWhile offer) values := by
  have hcomplete := h.complete_repeatWhile ends hround hhead hseries
  rwa [total_eq_zero] at hcomplete

end SoundRounds

end Rule

theorem Parser.parse_fst (limits : Limits) (items : List Item) : (Parser.ofItems limits items).parse.1 =
    match Rule.document limits.maxNesting (.ofItems limits items) with
    | .ok document _ => .ok document
    | .error diagnostic _ => .error diagnostic := by
  rw [Parser.parse]
  change (match Rule.document limits.maxNesting (.ofItems limits items) with
    | .ok document after => ((.ok document, after) : Except Diagnostic Document × Parser)
    | .error diagnostic after => (.error diagnostic, after)).1 = _
  cases Rule.document limits.maxNesting (.ofItems limits items) with
  | ok => rfl
  | error => rfl

theorem Document.parse_eq (limits : Limits) (source : String) : Document.parse limits source =
    match Rule.document limits.maxNesting (.ofSource limits source) with
    | .ok document _ => .ok document
    | .error diagnostic _ => .error diagnostic := Parser.parse_fst limits (itemsOf source)

theorem Document.parse_eq_ok_iff {limits : Limits} {source : String} {document : Document} :
    Document.parse limits source = .ok document ↔
      ∃ q, Rule.document limits.maxNesting (.ofItems limits (itemsOf source)) = .ok document q := by
  rw [Document.parse_eq, Parser.ofSource]
  cases Rule.document limits.maxNesting (.ofItems limits (itemsOf source)) with
  | ok found q => simp
  | error diagnostic q => simp

end Questionnaire
