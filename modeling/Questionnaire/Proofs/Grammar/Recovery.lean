import Questionnaire.Proofs.Grammar.Measure
import Questionnaire.Proofs.Grammar.Parallel

/-! Where reading stops, it could have gone on. A rule that stops blames the token ahead, and the tokens taken by then
can be gone on with in another way that completes what the rule was to read. One lemma for each way to put rules
together carries this along, with what is still to be completed around them. -/

namespace Questionnaire

namespace Token

/-- A token to go on with where the one ahead will not do. -/
def standIn (kind : TokenKind) (text : String) : Token := ⟨kind, text, .origin⟩

@[simp] theorem spells_standIn (kind : TokenKind) (word : String) : (standIn kind word).spells kind word = true := by
  simp [spells, standIn]

@[simp] theorem kind_standIn (kind : TokenKind) (word : String) : (standIn kind word).kind = kind := rfl

end Token

namespace Parser

variable {p q : Parser} {tokens : List Token} {cost room budget ahead : Nat}

theorem Sealed.takes (h : p.Sealed) (htakes : p.Takes tokens cost q) : q.Sealed := by
  obtain ⟨before, last, hstream, hlast⟩ := h
  rw [htakes.stream] at hstream
  obtain ⟨taken, others, hsplit, -, hothers⟩ := List.map_eq_append_iff.mp hstream.symm
  rcases List.eq_nil_or_concat others with rfl | ⟨others, final, rfl⟩
  · cases hothers
  · rw [List.concat_eq_append, ← List.append_assoc] at hsplit
    obtain ⟨-, hfinal⟩ := List.append_inj' hsplit rfl
    cases hfinal
    exact ⟨others, last, by rw [← hothers, List.concat_eq_append], hlast⟩

/-- Another token comes after any but the end of input. -/
theorem Sealed.exists_takes (h : p.Sealed) (hkind : p.current.kind ≠ .endOfInput) :
    ∃ q, p.Takes [p.current] 0 q := by
  obtain ⟨before, last, hstream, hlast⟩ := h
  obtain ⟨next, items, hitems⟩ : ∃ next items, p.items = .ok next :: items := by
    cases before with
    | nil =>
        have hcurrent : p.current = last := by simpa [Parser.stream] using (List.cons.inj hstream).1
        exact absurd (hcurrent ▸ hlast) hkind
    | cons first before =>
        have hitems : p.items = (before ++ [last]).map .ok := (List.cons.inj hstream).2
        cases before with
        | nil => exact ⟨_, _, hitems⟩
        | cons next before => exact ⟨_, _, hitems⟩
  exact ⟨{ p with items, current := next, previous := p.current },
    by simp [Parser.stream, hitems], rfl, rfl, by simp, rfl, rfl, rfl⟩

/-- The limits are out of reach, once so many tokens have been taken, and all numbers to come can be read. -/
structure Ready (parser : Parser) (room budget ahead : Nat) : Prop where
  hasRoom : parser.HasRoom room budget
  room : parser.items.length < room + ahead
  budget : parser.links + parser.items.length < budget
  isSealed : parser.Sealed
  numbers : ∀ token, .ok token ∈ parser.stream → token.kind = .number →
    (Double.read? token.text.toList).isSome = true

theorem Ready.takes (h : p.Ready room budget ahead) (htakes : p.Takes tokens cost q) (hahead : ahead ≤ tokens.length)
    (hcost : cost ≤ tokens.length) : q.Ready room budget 0 := by
  have hlength := htakes.length_items
  have hlinks := htakes.links
  have hroom := h.room
  have hbudget := h.budget
  refine ⟨htakes.hasRoom h.hasRoom, by omega, by omega, h.isSealed.takes htakes, fun token htoken => ?_⟩
  refine h.numbers token ?_
  rw [htakes.stream]
  exact List.mem_append_right _ htoken

theorem Ready.takes_free (h : p.Ready room budget 0) (htakes : p.Takes tokens 0 q) : q.Ready room budget 0 :=
  h.takes htakes (Nat.zero_le _) (Nat.zero_le _)

end Parser

namespace Rule

open Questionnaire.Parser (Takes)

variable {α β : Type} {p q : Parser} {rule : Rule α} {P Q : List Token → List Token → Prop} {room budget : Nat}

/-- Wherever the rule stops, the token ahead is to blame, and something would go on from the tokens taken. -/
def Recovers (rule : Rule α) (p : Parser) (P : List Token → List Token → Prop) : Prop :=
  ∀ diagnostic q, rule p = .error diagnostic q → diagnostic.position = q.current.position ∧
    ∃ taken rest, p.stream = taken.map .ok ++ q.stream ∧ P taken rest

theorem Recovers.mono (h : Recovers rule p P) (hP : ∀ taken rest, P taken rest → ∃ rest, Q taken rest) :
    Recovers rule p Q := by
  intro diagnostic q herror
  obtain ⟨hposition, taken, rest, hstream, hrest⟩ := h diagnostic q herror
  obtain ⟨rest, hrest⟩ := hP taken rest hrest
  exact ⟨hposition, taken, rest, hstream, hrest⟩

theorem Recovers.of_eq {rule' : Rule α} (h : Recovers rule' p P) (heq : rule p = rule' p) : Recovers rule p P := by
  intro diagnostic q herror
  rw [heq] at herror
  exact h diagnostic q herror

theorem recovers_of_eq_ok {value : α} (h : rule p = .ok value q) : Recovers rule p P := by
  intro diagnostic r herror
  rw [h] at herror
  cases herror

theorem recovers_pure {value : α} : Recovers (pure value) p P := recovers_of_eq_ok rfl

theorem recovers_pure_bind {value : α} {next : α → Rule β} (h : Recovers (next value) p P) :
    Recovers (pure value >>= next) p P := by
  rwa [pure_bind]

/-- What ends in a span has been read. -/
theorem recovers_spanSince {first : Token} {f : Span → α} :
    Recovers (do return f (← spanSince first)) p P := recovers_of_eq_ok rfl

theorem recovers_refuse (fault : Fault) (h : ∃ rest, P [] rest) : Recovers (refuse fault : Rule α) p P := by
  intro diagnostic q herror
  cases herror
  obtain ⟨rest, hrest⟩ := h
  exact ⟨rfl, [], rest, rfl, hrest⟩

theorem recovers_current_bind {next : Token → Rule β} (h : Recovers (next p.current) p P) :
    Recovers (current >>= next) p P := h

theorem recovers_refuseUnexpected (h : ∃ rest, P [] rest) : Recovers (refuseUnexpected : Rule α) p P :=
  recovers_current_bind (recovers_refuse _ h)

theorem recovers_bind {next : α → Rule β} (h : Recovers rule p P)
    (hnext : ∀ value q, rule p = .ok value q → ∃ tokens cost, p.Takes tokens cost q ∧
      Recovers (next value) q fun taken => P (tokens ++ taken)) :
    Recovers (rule >>= next) p P := by
  intro diagnostic r herror
  change EStateM.bind rule next p = _ at herror
  unfold EStateM.bind at herror
  cases hrule : rule p with
  | ok value q =>
      rw [hrule] at herror
      obtain ⟨tokens, cost, htakes, hrecovers⟩ := hnext value q hrule
      obtain ⟨hposition, taken, rest, hstream, hrest⟩ := hrecovers diagnostic r herror
      refine ⟨hposition, tokens ++ taken, rest, ?_, hrest⟩
      rw [htakes.stream, hstream, List.map_append, List.append_assoc]
  | error diagnostic q =>
      rw [hrule] at herror
      cases herror
      exact h _ _ hrule

theorem recovers_map {f : α → β} (h : Recovers rule p P) : Recovers (f <$> rule) p P := by
  intro diagnostic q herror
  refine h diagnostic q ?_
  change EStateM.map f rule p = _ at herror
  unfold EStateM.map at herror
  cases hrule : rule p with
  | ok value q =>
      rw [hrule] at herror
      cases herror
  | error diagnostic q =>
      rw [hrule] at herror
      cases herror
      rfl

theorem recovers_bind_pure {f : α → β} (h : Recovers rule p P) :
    Recovers (rule >>= fun value => pure (f value)) p P := by
  rw [bind_pure_comp]
  exact recovers_map h

theorem recovers_shift_bind {next : Unit → Rule β} (hsealed : p.Sealed) (hkind : p.current.kind ≠ .endOfInput)
    (hnext : ∀ q, p.Takes [p.current] 0 q → Recovers (next ()) q fun taken => P (p.current :: taken)) :
    Recovers (shift >>= next) p P := by
  obtain ⟨q, htakes⟩ := hsealed.exists_takes hkind
  have hshift := (shift_eq_ok hkind).mpr htakes
  refine recovers_bind (recovers_of_eq_ok hshift) fun _ r hrule => ?_
  cases hshift.symm.trans hrule
  exact ⟨_, _, htakes, hnext q htakes⟩

theorem recovers_expect_bind {kind : TokenKind} {next : Token → Rule β} (hsealed : p.Sealed)
    (hkind : kind ≠ .endOfInput) (h : ∃ rest, P [] rest)
    (hnext : ∀ token q, token.kind = kind → p.Takes [token] 0 q →
      Recovers (next token) q fun taken => P (token :: taken)) :
    Recovers (expect kind >>= next) p P := by
  refine recovers_bind ?_ fun token q hrule => ?_
  · refine recovers_current_bind ?_
    split
    next hcurrent => exact recovers_shift_bind hsealed (hcurrent ▸ hkind) fun _ _ => recovers_pure
    next => exact recovers_refuse _ h
  · obtain ⟨htoken, htakes⟩ := (expect_eq_ok hkind).mp hrule
    exact ⟨_, _, htakes, hnext token q htoken htakes⟩

theorem recovers_expectWord_bind {kind : TokenKind} {word : String} {next : Token → Rule β} (hsealed : p.Sealed)
    (hkind : kind ≠ .endOfInput) (h : ∃ rest, P [] rest)
    (hnext : ∀ token q, token.spells kind word = true → p.Takes [token] 0 q →
      Recovers (next token) q fun taken => P (token :: taken)) :
    Recovers (expectWord kind word >>= next) p P := by
  refine recovers_bind ?_ fun token q hrule => ?_
  · refine recovers_current_bind ?_
    split
    next hcurrent =>
      exact recovers_shift_bind hsealed ((Token.spells_iff.mp hcurrent).1 ▸ hkind) fun _ _ => recovers_pure
    next => exact recovers_refuse _ h
  · obtain ⟨htoken, htakes⟩ := (expectWord_eq_ok hkind).mp hrule
    exact ⟨_, _, htakes, hnext token q htoken htakes⟩

theorem recovers_passWord_bind {kind : TokenKind} {word : String} {next : Bool → Rule β} (hsealed : p.Sealed)
    (hkind : kind ≠ .endOfInput)
    (htaken : ∀ token q, token.spells kind word = true → p.Takes [token] 0 q →
      Recovers (next true) q fun taken => P (token :: taken))
    (hleft : Recovers (next false) p P) : Recovers (passWord kind word >>= next) p P := by
  by_cases hspells : p.current.spells kind word = true
  · have hkind' : p.current.kind ≠ .endOfInput := (Token.spells_iff.mp hspells).1 ▸ hkind
    obtain ⟨q, htakes⟩ := hsealed.exists_takes hkind'
    have hpass : passWord kind word p = .ok true q := by
      rw [passWord, current_bind, if_pos hspells]
      exact (shift_bind_eq_ok hkind').mpr ⟨q, htakes, rfl⟩
    refine recovers_bind (recovers_of_eq_ok hpass) fun _ r hrule => ?_
    cases hpass.symm.trans hrule
    exact ⟨_, _, htakes, htaken _ q hspells htakes⟩
  · have hpass : passWord kind word p = .ok false p := by
      rw [passWord, current_bind, if_neg hspells]
      rfl
    refine recovers_bind (recovers_of_eq_ok hpass) fun _ r hrule => ?_
    cases hpass.symm.trans hrule
    exact ⟨[], 0, Takes.refl p, hleft⟩

theorem recovers_leaving {exit : Parser → Parser} {p' : Parser} {diagnostic : Diagnostic}
    (h : Recovers rule p' P) (hstream : p'.stream = p.stream) (herror : leaving exit rule p' = .error diagnostic q)
    (hexit : ∀ q, (exit q).stream = q.stream) : diagnostic.position = q.current.position ∧
      ∃ taken rest, p.stream = taken.map .ok ++ q.stream ∧ P taken rest := by
  unfold leaving at herror
  cases hrule : rule p' with
  | ok value r =>
      rw [hrule] at herror
      cases herror
  | error found r =>
      rw [hrule] at herror
      cases herror
      obtain ⟨hposition, taken, rest, hsplit, hrest⟩ := h _ r hrule
      have hcurrent : (exit r).current = r.current := by
        simpa [Parser.stream] using (List.cons.inj (hexit r)).1
      exact ⟨by rw [hposition, hcurrent], taken, rest, by rw [← hstream, hsplit, hexit], hrest⟩

/-- A bracket may be opened as long as the limits are out of reach. -/
theorem recovers_bracketed (hready : p.Ready room budget 0)
    (h : ∀ below p', room = below + 1 → p'.Ready below budget 1 → p'.current = p.current → Recovers rule p' P) :
    Recovers (bracketed rule) p P := by
  have hroom := hready.room
  have hdepth := hready.hasRoom.1
  obtain ⟨below, rfl⟩ : ∃ below, room = below + 1 := ⟨room - 1, by omega⟩
  have hdeeper : Parser.Ready { p with depth := p.depth + 1 } below budget 1 := by
    refine ⟨⟨?_, hready.hasRoom.2⟩, hroom, hready.budget, hready.isSealed, hready.numbers⟩
    dsimp only
    omega
  intro diagnostic q herror
  unfold bracketed at herror
  rw [if_neg (by omega)] at herror
  exact recovers_leaving (h below _ rfl hdeeper rfl) rfl herror fun _ => rfl

/-- No more tokens are left to take than the budget has charges. -/
theorem recovers_budgeted (hready : p.Ready room budget 0)
    (h : ∀ p', p'.Ready room budget 0 → Recovers rule p' fun taken rest => taken.length ≤ budget → P taken rest) :
    Recovers (budgeted rule) p P := by
  have hbudget := hready.budget
  have hfresh : Parser.Ready { p with links := 0 } room budget 0 := by
    refine ⟨hready.hasRoom, hready.room, ?_, hready.isSealed, hready.numbers⟩
    dsimp only
    omega
  intro diagnostic q herror
  unfold budgeted at herror
  obtain ⟨hposition, taken, rest, hstream, hrest⟩ := recovers_leaving (h _ hfresh) rfl herror fun _ => rfl
  have hlength := congrArg List.length hstream
  simp only [Parser.stream, List.length_cons, List.length_append, List.length_map] at hlength
  exact ⟨hposition, taken, rest, hstream, hrest (by omega)⟩

theorem Sound.budgeted {derives : α → List Token → Prop} {cost : α → Nat} (h : Sound room budget derives cost rule) :
    Sound room budget (fun value tokens => derives value tokens ∧ cost value ≤ budget) (fun _ => 0)
      (budgeted rule) := by
  intro p value r hroom hrule
  obtain ⟨p', q, hroom', hrule', htakes⟩ := takes_of_budgeted hrule hroom
  obtain ⟨tokens, htokens, hderives⟩ := h p' value q hroom' hrule'
  obtain ⟨htaken, hcost⟩ := htakes _ _ htokens
  exact ⟨tokens, htaken, hderives, hcost⟩

theorem recovers_charge_bind {ahead : Nat} {next : Unit → Rule β} (hready : p.Ready room budget ahead)
    (hnext : ∀ q, q.current = p.current → p.Takes [] 1 q → Recovers (next ()) q P) :
    Recovers (charge >>= next) p P := by
  have hbudget := hready.budget
  have hmax := hready.hasRoom.2
  have hcharged : p.Takes [] 1 { p with links := p.links + 1 } :=
    ⟨rfl, rfl, rfl, fun _ => by dsimp only; omega, rfl, rfl, rfl⟩
  have hcharge := charge_eq_ok.mpr hcharged
  refine recovers_bind (recovers_of_eq_ok hcharge) fun _ r hrule => ?_
  cases hcharge.symm.trans hrule
  exact ⟨_, _, hcharged, hnext _ rfl hcharged⟩

/-- The rest completes what the rule was to read, without a charge for more than the tokens taken. -/
def Completes (derives : α → List Token → Prop) (cost : α → Nat) (taken rest : List Token) : Prop :=
  ∃ value, derives value (taken ++ rest) ∧ cost value ≤ taken.length

theorem exists_completes {derives : α → List Token → Prop} {cost : α → Nat} {taken tokens : List Token} {value : α}
    (rest : List Token) (h : derives value tokens) (htokens : taken ++ rest = tokens)
    (hcost : cost value ≤ taken.length) : ∃ rest, Completes derives cost taken rest := ⟨rest, value, htokens ▸ h, hcost⟩

theorem exists_completes_free {derives : α → List Token → Prop} {taken tokens : List Token} {value : α}
    (rest : List Token) (h : derives value tokens) (htokens : taken ++ rest = tokens) :
    ∃ rest, Completes derives (fun _ => 0) taken rest := exists_completes rest h htokens (Nat.zero_le _)

/-- Wherever the rule stops, what it was to read can be completed. -/
def Viable (room budget : Nat) (derives : α → List Token → Prop) (cost : α → Nat) (rule : Rule α) : Prop :=
  ∀ p, p.Ready room budget 0 → Recovers rule p (Completes derives cost)

/-- A rule followed by others stops in the one or in the others, which have what it derives behind them. -/
theorem Viable.recovers_bind {derives : α → List Token → Prop} {cost : α → Nat} {next : α → Rule β}
    (h : Viable room budget derives cost rule) (hsound : Sound room budget derives cost rule)
    (hready : p.Ready room budget 0) (hrest : ∀ taken rest, Completes derives cost taken rest → ∃ rest, P taken rest)
    (hnext : ∀ value tokens q, derives value tokens → p.Takes tokens (cost value) q →
      Recovers (next value) q fun taken => P (tokens ++ taken)) :
    Recovers (rule >>= next) p P := by
  refine Rule.recovers_bind ((h p hready).mono hrest) fun value q hrule => ?_
  obtain ⟨tokens, htakes, hderives⟩ := hsound p value q hready.hasRoom hrule
  exact ⟨tokens, cost value, htakes, hnext value tokens q hderives htakes⟩

/-- What is read with a budget of its own costs the rest of the expression nothing. -/
theorem Viable.budgeted {derives : α → List Token → Prop} {cost : α → Nat} (h : Viable room budget derives cost rule) :
    Viable room budget (fun value tokens => derives value tokens ∧ cost value ≤ budget) (fun _ => 0)
      (budgeted rule) := by
  intro p hready
  refine recovers_budgeted hready fun p' hready' => (h p' hready').mono ?_
  rintro taken rest ⟨value, hvalue, hle⟩
  exact ⟨rest, fun hlength => ⟨value, ⟨hvalue, Nat.le_trans hle hlength⟩, Nat.zero_le _⟩⟩

/-- Every round that the loop offers is viable. -/
def ViableRounds (room budget : Nat) (derives : α → List Token → Prop) (cost : α → Nat)
    (offer : Token → Option (Rule α)) : Prop :=
  ∀ p rule, p.Ready room budget 0 → offer p.current = some rule → Recovers rule p (Completes derives cost)

/-- A loop that stops does so in a round. What goes on there goes on from the rounds before it too. -/
theorem recovers_repeatWhile {offer : Token → Option (Rule α)} {I : Parser → Prop}
    {G : Parser → List Token → List Token → Prop}
    (hround : ∀ p rule, I p → offer p.current = some rule → Recovers rule p (G p))
    (hnext : ∀ p rule value q, I p → offer p.current = some rule → rule p = .ok value q →
      ∃ tokens cost, p.Takes tokens cost q ∧ I q ∧
        ∀ taken rest, G q taken rest → G p (tokens ++ taken) rest)
    (hready : I p) : Recovers (repeatWhile offer) p (G p) := by
  -- by induction on the bound, from any parser, since every round leaves another one
  have hrounds (fuel : List Item) {p : Parser} (hready : I p) : Recovers (rounds offer fuel) p (G p) := by
    induction fuel generalizing p with
    | nil =>
        cases hoffer : offer p.current with
        | none => exact recovers_of_eq_ok (rounds_of_none _ hoffer)
        | some rule =>
            refine Recovers.of_eq ?_ (rounds_of_some _ hoffer)
            refine recovers_bind (hround p rule hready hoffer) fun value q hrule => ?_
            obtain ⟨tokens, cost, htakes, -⟩ := hnext p rule value q hready hoffer hrule
            exact ⟨tokens, cost, htakes, recovers_pure⟩
    | cons item fuel ih =>
        cases hoffer : offer p.current with
        | none => exact recovers_of_eq_ok (rounds_of_none _ hoffer)
        | some rule =>
            refine Recovers.of_eq ?_ (rounds_of_some _ hoffer)
            refine recovers_bind (hround p rule hready hoffer) fun value q hrule => ?_
            obtain ⟨tokens, cost, htakes, hready', hback⟩ := hnext p rule value q hready hoffer hrule
            refine ⟨tokens, cost, htakes, recovers_bind_pure ((ih hready').mono fun taken rest hrest => ?_)⟩
            exact ⟨rest, hback taken rest hrest⟩
  exact hrounds p.items hready

theorem ViableRounds.viable_repeatWhile {derives : α → List Token → Prop} {cost : α → Nat}
    {offer : Token → Option (Rule α)} (h : ViableRounds room budget derives cost offer)
    (hsound : SoundRounds room budget derives cost offer)
    (hcost : ∀ value tokens, derives value tokens → cost value ≤ tokens.length) :
    Viable room budget (Series derives) (total cost) (repeatWhile offer) := by
  intro p hready
  refine recovers_repeatWhile (I := fun p => p.Ready room budget 0)
    (G := fun _ => Completes (Series derives) (total cost)) ?_ ?_ hready
  · intro p rule hready hoffer
    refine (h p rule hready hoffer).mono ?_
    rintro taken rest ⟨value, hvalue, hle⟩
    exact exists_completes (rest ++ []) (.cons hvalue .nil) (by simp) hle
  · intro p rule value q hready hoffer hrule
    obtain ⟨first, tokens, htakes, hvalue⟩ := hsound p rule value q hready.hasRoom hoffer hrule
    have hle := hcost value _ hvalue
    refine ⟨_, _, htakes, hready.takes htakes (Nat.zero_le _) hle, ?_⟩
    rintro taken rest ⟨values, hvalues, hlength⟩
    refine ⟨value :: values, ?_, ?_⟩
    · rw [List.append_assoc]
      exact .cons hvalue hvalues
    · rw [total, List.length_append]
      omega

theorem ViableRounds.viable_repeatWhile_free {derives : α → List Token → Prop}
    {offer : Token → Option (Rule α)} (h : ViableRounds room budget derives (fun _ => 0) offer)
    (hsound : SoundRounds room budget derives (fun _ => 0) offer) :
    Viable room budget (Series derives) (fun _ => 0) (repeatWhile offer) := by
  intro p hready
  refine (h.viable_repeatWhile hsound (fun _ _ _ => Nat.zero_le _) p hready).mono fun taken rest hcompletes => ?_
  obtain ⟨values, hvalues, -⟩ := hcompletes
  exact ⟨rest, values, hvalues, Nat.zero_le _⟩

end Rule

end Questionnaire
