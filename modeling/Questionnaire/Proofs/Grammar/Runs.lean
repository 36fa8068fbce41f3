import Questionnaire.Proofs.Grammar.Resuming

/-! Readings with nothing to bound their rounds. A run tells what a reading pulls off the stream, what it charges to the
budget it is run with, and how it ends. Loops go on for as long as the token ahead offers a round, so that a reading has
a run only if it comes to an end by itself. Whatever is read, the counters are put back but for what was charged, and
nothing is pulled behind a fault or behind the end of input. -/

namespace Questionnaire

variable {α β : Type}

namespace Parser

/-- The end of input is ahead, and stays there. -/
def Ended (parser : Parser) : Prop := parser.started = true ∧ parser.current.kind = .endOfInput

/-- A parser that has pulled nothing yet has the placeholder ahead. -/
def Proper (parser : Parser) : Prop := parser.started = true ∨ parser.current.kind = .endOfInput

end Parser

namespace Rule

/-- How a reading ends: with an answer or at a fault, and with the parser that it leaves. -/
abbrev Result (α : Type) := EStateM.Result Diagnostic Parser α

/-- The same end, with a change made to the parser that is left. -/
def exiting (exit : Parser → Parser) : Result α → Result α
  | .ok value after => .ok value (exit after)
  | .error diagnostic after => .error diagnostic (exit after)

/-- What a rule does from a parser on: the items that it pulls, the tokens that it charges to the budget at hand, and
how it ends. -/
inductive Runs : {α : Type} → Rule α → Parser → List Item → List Token → Result α → Prop where
  | pure {α : Type} (value : α) (p : Parser) : Runs (pure value) p [] [] (.ok value p)
  | current (p : Parser) : Runs current p [] [] (.ok p.current p)
  | spanSince (first : Token) (p : Parser) : Runs (spanSince first) p [] [] (.ok ⟨first, p.previous⟩ p)
  | throw {α : Type} (diagnostic : Diagnostic) (p : Parser) :
      Runs (throw (α := α) diagnostic) p [] [] (.error diagnostic p)
  | refuse {α : Type} (fault : Fault) (p : Parser) :
      Runs (refuse (α := α) fault) p [] [] (.error ⟨fault, p.current.position⟩ p)
  | start (p : Parser) : Runs start p (if p.started = true then [] else p.items.take 1) [] (start p)
  | shift (p : Parser) : Runs shift p (if p.current.kind = .endOfInput then [] else p.items.take 1) [] (shift p)
  | charge (p : Parser) :
      Runs charge p [] (if p.limits.maxExpressionDepth ≤ p.links then [] else [p.current]) (charge p)
  | bind {α β : Type} {rule : Rule α} {next : α → Rule β} {p q : Parser} {value : α} {pulled pulled' : List Item}
      {charged charged' : List Token} {result : Result β} (hrule : Runs rule p pulled charged (.ok value q))
      (hnext : Runs (next value) q pulled' charged' result) :
      Runs (rule >>= next) p (pulled ++ pulled') (charged ++ charged') result
  | stop {α β : Type} {rule : Rule α} {next : α → Rule β} {p q : Parser} {diagnostic : Diagnostic}
      {pulled : List Item} {charged : List Token} (hrule : Runs rule p pulled charged (.error diagnostic q)) :
      Runs (rule >>= next) p pulled charged (.error diagnostic q)
  | tooDeep {α : Type} {rule : Rule α} {p : Parser} (hfull : p.limits.maxNesting ≤ p.depth) :
      Runs (bracketed rule) p [] [] (.error ⟨.tooDeep, p.current.position⟩ p)
  | bracketed {α : Type} {rule : Rule α} {p : Parser} {pulled : List Item} {charged : List Token} {result : Result α}
      (hroom : p.depth < p.limits.maxNesting)
      (hrule : Runs rule { p with depth := p.depth + 1 } pulled charged result) :
      Runs (bracketed rule) p pulled charged (exiting (fun after => { after with depth := after.depth - 1 }) result)
  | budgeted {α : Type} {rule : Rule α} {p : Parser} {pulled : List Item} {charged : List Token} {result : Result α}
      (hrule : Runs rule { p with links := 0 } pulled charged result) :
      Runs (budgeted rule) p pulled [] (exiting (fun after => { after with links := p.links }) result)
  | done {α : Type} {offer : Token → Option (Rule α)} {p : Parser} (hoffer : offer p.current = none) :
      Runs (repeatWhile offer) p [] [] (.ok [] p)
  | round {α : Type} {offer : Token → Option (Rule α)} {rule : Rule α} {p : Parser} {pulled : List Item}
      {charged : List Token} {result : Result (List α)} (hoffer : offer p.current = some rule)
      (hround : Runs (do return (← rule) :: (← repeatWhile offer)) p pulled charged result) :
      Runs (repeatWhile offer) p pulled charged result

theorem runs_charge {p : Parser} (h : ¬p.limits.maxExpressionDepth ≤ p.links) :
    Runs charge p [] [p.current] (.ok () { p with links := p.links + 1 }) := by
  have hcharge : charge p = .ok () { p with links := p.links + 1 } := if_neg h
  have hruns := Runs.charge p
  rwa [if_neg h, hcharge] at hruns

theorem runs_charge_of_le {p : Parser} (h : p.limits.maxExpressionDepth ≤ p.links) :
    Runs charge p [] [] (.error ⟨.tooDeep, p.current.position⟩ p) := by
  have hcharge : charge p = .error ⟨.tooDeep, p.current.position⟩ p := if_pos h
  have hruns := Runs.charge p
  rwa [if_pos h, hcharge] at hruns

theorem leftBy_exiting (exit : Parser → Parser) (result : Result α) :
    leftBy (exiting exit result) = exit (leftBy result) := by
  cases result <;> rfl

theorem exiting_id (result : Result α) : exiting id result = result := by cases result <;> rfl

theorem exiting_eq_ok {exit : Parser → Parser} {result : Result α} {value : α} {after : Parser}
    (h : exiting exit result = .ok value after) : ∃ q, result = .ok value q := by
  cases result with
  | ok _ q =>
      cases h
      exact ⟨q, rfl⟩
  | error => cases h

theorem leaving_apply (exit : Parser → Parser) (rule : Rule α) (p : Parser) :
    leaving exit rule p = exiting exit (rule p) := by
  unfold leaving
  cases rule p <;> rfl

namespace Runs

variable {rule : Rule α} {p : Parser} {pulled : List Item} {charged : List Token} {result : Result α}

/-- What is left of the stream and of the counters. -/
structure Keeps (before after : Parser) (pulled : List Item) (charged : List Token) : Prop where
  items : before.items = pulled ++ after.items
  limits : after.limits = before.limits
  depth : after.depth = before.depth
  links : after.links = before.links + charged.length
  started : before.started = true → after.started = true

protected theorem Keeps.refl (p : Parser) : Keeps p p [] [] := ⟨rfl, rfl, rfl, rfl, id⟩

theorem Keeps.trans {q r : Parser} {pulled' : List Item} {charged' : List Token} (h : Keeps p q pulled charged)
    (h' : Keeps q r pulled' charged') : Keeps p r (pulled ++ pulled') (charged ++ charged') := by
  refine ⟨?_, h'.limits.trans h.limits, h'.depth.trans h.depth, ?_, fun hstarted => h'.started (h.started hstarted)⟩
  · rw [h.items, h'.items, List.append_assoc]
  · rw [h'.links, h.links, List.length_append, Nat.add_assoc]

theorem keeps_start (p : Parser) :
    Keeps p (leftBy (Rule.start p)) (if p.started = true then [] else p.items.take 1) [] := by
  unfold Rule.start fetch
  split
  · exact .refl p
  · cases hitems : p.items with
    | nil => exact ⟨hitems, rfl, rfl, rfl, fun _ => rfl⟩
    | cons item items => cases item <;> exact ⟨hitems, rfl, rfl, rfl, fun _ => rfl⟩

theorem keeps_shift (p : Parser) :
    Keeps p (leftBy (Rule.shift p)) (if p.current.kind = .endOfInput then [] else p.items.take 1) [] := by
  unfold Rule.shift fetch
  split
  · exact .refl p
  · cases hitems : p.items with
    | nil => exact ⟨rfl, rfl, rfl, rfl, id⟩
    | cons item items => cases item <;> exact ⟨hitems, rfl, rfl, rfl, id⟩

/-- A run leaves the stream where it has pulled to, the brackets as they were, and what it has charged on the budget. -/
theorem keeps (h : Runs rule p pulled charged result) : Keeps p (leftBy result) pulled charged := by
  induction h with
  | start p => exact keeps_start p
  | shift p => exact keeps_shift p
  | charge p =>
      unfold Rule.charge
      split
      · exact .refl p
      · exact ⟨rfl, rfl, rfl, rfl, id⟩
  | bind _ _ ih ihNext => exact ih.trans ihNext
  | stop _ ih => exact ih
  | bracketed _ _ ih =>
      rw [leftBy_exiting]
      exact ⟨ih.items, ih.limits, by rw [ih.depth]; rfl, ih.links, ih.started⟩
  | budgeted _ ih =>
      rw [leftBy_exiting]
      exact ⟨ih.items, ih.limits, ih.depth, rfl, ih.started⟩
  | round _ _ ih => exact ih
  | _ => exact .refl _

/-- At the end of input nothing more is pulled. -/
theorem ended (h : Runs rule p pulled charged result) (hended : p.Ended) : pulled = [] ∧ (leftBy result).Ended := by
  induction h with
  | start p =>
      unfold Rule.start
      rw [if_pos hended.1, if_pos hended.1]
      exact ⟨rfl, hended⟩
  | shift p =>
      unfold Rule.shift
      rw [if_pos hended.2, if_pos hended.2]
      exact ⟨rfl, hended⟩
  | charge p =>
      unfold Rule.charge
      split <;> exact ⟨rfl, hended⟩
  | bind _ _ ih ihNext =>
      obtain ⟨rfl, hq⟩ := ih hended
      exact ihNext hq
  | stop _ ih => exact ih hended
  | bracketed _ _ ih =>
      rw [leftBy_exiting]
      exact ih hended
  | budgeted _ ih =>
      rw [leftBy_exiting]
      exact ih hended
  | round _ _ ih => exact ih hended
  | _ => exact ⟨rfl, hended⟩

theorem proper (h : Runs rule p pulled charged result) (hproper : p.Proper) : (leftBy result).Proper := by
  rcases hproper with hstarted | hkind
  · exact .inl (h.keeps.started hstarted)
  induction h with
  | start p =>
      unfold Rule.start fetch
      split
      next hstarted => exact .inl hstarted
      next =>
        cases p.items with
        | nil => exact .inl rfl
        | cons item items => cases item <;> exact .inl rfl
  | shift p =>
      unfold Rule.shift
      rw [if_pos hkind]
      exact .inr hkind
  | charge p =>
      unfold Rule.charge
      split <;> exact .inr hkind
  | bind _ hnext ih ihNext => exact (ih hkind).elim (fun hstarted => .inl (hnext.keeps.started hstarted)) ihNext
  | stop _ ih => exact ih hkind
  | bracketed _ _ ih =>
      rw [leftBy_exiting]
      exact ih hkind
  | budgeted _ ih =>
      rw [leftBy_exiting]
      exact ih hkind
  | round _ _ ih => exact ih hkind
  | _ => exact .inr hkind

/-- What a reading has come to that has pulled the item: behind a fault it stops with it, and behind the end of input
the end stays ahead. -/
def Heeds (result : Result α) : Item → Prop
  | .ok token => token.kind = .endOfInput → (leftBy result).Ended
  | .error diagnostic => ∃ stopped, result = .error diagnostic stopped

theorem heeds_exiting {exit : Parser → Parser} {item : Item} (h : Heeds result item)
    (hexit : ∀ q : Parser, q.Ended → (exit q).Ended) : Heeds (exiting exit result) item := by
  cases item with
  | ok token =>
      intro hkind
      rw [leftBy_exiting]
      exact hexit _ (h hkind)
  | error diagnostic =>
      obtain ⟨stopped, rfl⟩ := h
      exact ⟨exit stopped, rfl⟩

theorem heeds_start (p : Parser) :
    ∀ item ∈ if p.started = true then [] else p.items.take 1, Heeds (Rule.start p) item := by
  unfold Rule.start fetch
  split
  · exact nofun
  · cases p.items with
    | nil => exact nofun
    | cons item items =>
        cases item with
        | ok token => exact List.forall_mem_singleton.mpr fun hkind => ⟨rfl, hkind⟩
        | error diagnostic => exact List.forall_mem_singleton.mpr ⟨_, rfl⟩

theorem heeds_shift (hproper : p.Proper) :
    ∀ item ∈ if p.current.kind = .endOfInput then [] else p.items.take 1, Heeds (Rule.shift p) item := by
  unfold Rule.shift fetch
  split
  · exact nofun
  next hkind =>
    have hstarted := hproper.resolve_right hkind
    cases p.items with
    | nil => exact nofun
    | cons item items =>
        cases item with
        | ok token => exact List.forall_mem_singleton.mpr fun hkind => ⟨hstarted, hkind⟩
        | error diagnostic => exact List.forall_mem_singleton.mpr ⟨_, rfl⟩

/-- Every item that is pulled is heeded, and only the last one may be a fault or the end of input. -/
structure Settles (pulled : List Item) (result : Result α) : Prop where
  heeds : ∀ item ∈ pulled, Heeds result item
  inside : ∀ item ∈ pulled.dropLast, item.isLast = false

theorem settles_nil (result : Result α) : Settles [] result := ⟨nofun, nofun⟩

theorem Settles.of_take {items : List Item} (h : ∀ item ∈ items.take 1, Heeds result item) :
    Settles (items.take 1) result := by
  refine ⟨h, ?_⟩
  cases items <;> exact nofun

theorem settles (h : Runs rule p pulled charged result) (hproper : p.Proper) : Settles pulled result := by
  induction h with
  | start p =>
      have hheeds := heeds_start p
      split at hheeds
      next hstarted =>
        rw [if_pos hstarted]
        exact settles_nil _
      next hstarted =>
        rw [if_neg hstarted]
        exact .of_take hheeds
  | shift p =>
      have hheeds := heeds_shift hproper
      split at hheeds
      next hkind =>
        rw [if_pos hkind]
        exact settles_nil _
      next hkind =>
        rw [if_neg hkind]
        exact .of_take hheeds
  | @bind _ _ rule next p q value pulled pulled' _ _ result hrule hnext ih ihNext =>
      have hrest := ihNext (hrule.proper hproper)
      have hfirst := ih hproper
      -- the first rule has answered, so that no fault has been pulled yet
      by_cases hlast : ∃ item ∈ pulled, item.isLast = true
      · obtain ⟨item, hitem, hlast⟩ := hlast
        have hq : q.Ended := by
          cases item with
          | ok token => exact hfirst.heeds _ hitem (beq_iff_eq.mp hlast)
          | error diagnostic =>
              obtain ⟨stopped, hstopped⟩ := hfirst.heeds _ hitem
              cases hstopped
        obtain ⟨rfl, hend⟩ := hnext.ended hq
        rw [List.append_nil]
        refine ⟨fun item hitem => ?_, hfirst.inside⟩
        cases item with
        | ok token => exact fun _ => hend
        | error diagnostic =>
            obtain ⟨stopped, hstopped⟩ := hfirst.heeds _ hitem
            cases hstopped
      · have hopen : ∀ item ∈ pulled, item.isLast = false :=
          fun item hitem => Bool.eq_false_iff.mpr fun hitemLast => hlast ⟨item, hitem, hitemLast⟩
        refine ⟨List.forall_mem_append.mpr ⟨fun item hitem => ?_, hrest.heeds⟩, fun item hitem => ?_⟩
        · cases item with
          | ok token => exact fun hkind => absurd (hopen _ hitem) (by simp [Item.isLast, hkind])
          | error diagnostic => exact absurd (hopen _ hitem) (by simp [Item.isLast])
        · cases pulled' with
          | nil =>
              rw [List.append_nil] at hitem
              exact hopen item (List.mem_of_mem_dropLast hitem)
          | cons first others =>
              rw [List.dropLast_append_of_ne_nil (List.cons_ne_nil _ _)] at hitem
              exact (List.mem_append.mp hitem).elim (hopen item) (hrest.inside item)
  | @stop _ _ rule next p q diagnostic pulled _ hrule ih =>
      have hfirst := ih hproper
      refine ⟨fun item hitem => ?_, hfirst.inside⟩
      have hheeds := hfirst.heeds item hitem
      cases item with
      | ok token => exact hheeds
      | error other =>
          obtain ⟨stopped, hstopped⟩ := hheeds
          cases hstopped
          exact ⟨_, rfl⟩
  | bracketed _ _ ih =>
      have hrule := ih hproper
      exact ⟨fun item hitem => heeds_exiting (hrule.heeds item hitem) fun _ => id, hrule.inside⟩
  | budgeted _ ih =>
      have hrule := ih hproper
      exact ⟨fun item hitem => heeds_exiting (hrule.heeds item hitem) fun _ => id, hrule.inside⟩
  | round _ _ ih => exact ih hproper
  | _ => exact settles_nil _

end Runs

/-- A change to a parser that no reading sees: it touches neither the token ahead nor what has been counted, and the
next item to be pulled stays the same. -/
structure Unseen (exit : Parser → Parser) : Prop where
  current (p : Parser) : (exit p).current = p.current
  previous (p : Parser) : (exit p).previous = p.previous
  limits (p : Parser) : (exit p).limits = p.limits
  started (p : Parser) : (exit p).started = p.started
  depth (p : Parser) : (exit p).depth = p.depth
  links (p : Parser) : (exit p).links = p.links
  deepen (p : Parser) (depth : Nat) : exit { p with depth } = { exit p with depth }
  spend (p : Parser) (links : Nat) : exit { p with links } = { exit p with links }
  starting (p : Parser) : p.started = false → (exit p).items.take 1 = p.items.take 1
  shifting (p : Parser) : p.current.kind ≠ .endOfInput → (exit p).items.take 1 = p.items.take 1
  start (p : Parser) : p.Proper → start (exit p) = exiting exit (start p)
  shift (p : Parser) : p.Proper → shift (exit p) = exiting exit (shift p)

namespace Unseen

variable {exit : Parser → Parser} {p : Parser}

theorem charge (h : Unseen exit) (p : Parser) : charge (exit p) = exiting exit (charge p) := by
  have hlimit : (exit p).limits.maxExpressionDepth ≤ (exit p).links ↔ p.limits.maxExpressionDepth ≤ p.links := by
    rw [h.limits, h.links]
  unfold Rule.charge
  by_cases hspent : p.limits.maxExpressionDepth ≤ p.links
  · rw [if_pos hspent, if_pos (hlimit.mpr hspent)]
    unfold Rule.refuse
    rw [h.current]
    rfl
  · rw [if_neg hspent, if_neg (mt hlimit.mp hspent)]
    change EStateM.Result.ok () { exit p with links := (exit p).links + 1 } =
      .ok () (exit { p with links := p.links + 1 })
    rw [h.links]
    exact congrArg (EStateM.Result.ok ()) (h.spend p (p.links + 1)).symm

theorem exiting_depth (h : Unseen exit) (result : Result α) :
    exiting (fun after => { after with depth := after.depth - 1 }) (exiting exit result) =
      exiting exit (exiting (fun after => { after with depth := after.depth - 1 }) result) := by
  have hafter (q : Parser) :
      ({ exit q with depth := (exit q).depth - 1 } : Parser) = exit { q with depth := q.depth - 1 } := by
    rw [h.depth]
    exact (h.deepen q (q.depth - 1)).symm
  cases result with
  | ok value after => exact congrArg (EStateM.Result.ok value) (hafter after)
  | error diagnostic after => exact congrArg (EStateM.Result.error diagnostic) (hafter after)

theorem exiting_links (h : Unseen exit) (links : Nat) (result : Result α) :
    exiting (fun after => { after with links }) (exiting exit result) =
      exiting exit (exiting (fun after => { after with links }) result) := by
  cases result <;> exact congrArg _ (h.spend _ _).symm

/-- The same run goes on from the changed parser. -/
theorem runs (h : Unseen exit) {rule : Rule α} {pulled : List Item} {charged : List Token} {result : Result α}
    (hruns : Runs rule p pulled charged result) (hproper : p.Proper) :
    Runs rule (exit p) pulled charged (exiting exit result) := by
  induction hruns with
  | pure value p => exact .pure value (exit p)
  | current p =>
      have hruns := Runs.current (exit p)
      rwa [h.current] at hruns
  | spanSince first p =>
      have hruns := Runs.spanSince first (exit p)
      rwa [h.previous] at hruns
  | throw diagnostic p => exact .throw diagnostic (exit p)
  | @refuse α fault p =>
      have hruns := @Runs.refuse α fault (exit p)
      rwa [h.current] at hruns
  | start p =>
      have hruns := Runs.start (exit p)
      rw [h.start p hproper, h.started] at hruns
      cases hstarted : p.started with
      | true => simpa only [hstarted, if_true] using hruns
      | false => simpa only [hstarted, Bool.false_eq_true, if_false, h.starting p hstarted] using hruns
  | shift p =>
      have hruns := Runs.shift (exit p)
      rw [h.shift p hproper, h.current] at hruns
      by_cases hkind : p.current.kind = .endOfInput
      · simpa only [if_pos hkind] using hruns
      · simpa only [if_neg hkind, h.shifting p hkind] using hruns
  | charge p =>
      have hruns := Runs.charge (exit p)
      rwa [h.charge, h.limits, h.links, h.current] at hruns
  | bind hrule _ ih ihNext => exact .bind (ih hproper) (ihNext (hrule.proper hproper))
  | stop _ ih => exact .stop (ih hproper)
  | @tooDeep _ rule p hfull =>
      have hruns := @Runs.tooDeep _ rule (exit p) (by rwa [h.limits, h.depth])
      rwa [h.current] at hruns
  | bracketed hroom _ ih =>
      have hrule := ih hproper
      rw [h.deepen, ← h.depth] at hrule
      rw [← h.exiting_depth]
      exact .bracketed (by rwa [h.limits, h.depth]) hrule
  | budgeted _ ih =>
      have hrule := ih hproper
      rw [h.spend] at hrule
      rw [← h.exiting_links, ← h.links]
      exact .budgeted hrule
  | done hoffer => exact .done (by rwa [h.current])
  | round hoffer _ ih => exact .round (by rwa [h.current]) (ih hproper)

end Unseen

end Rule

end Questionnaire
