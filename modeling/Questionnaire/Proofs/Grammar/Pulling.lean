import Questionnaire.Proofs.Grammar.Paced

/-! What calls of a parser pull off its stream. Each call comes to an end, whatever the stream yields: each round of a
loop takes a token, and the end of input is never taken. The calls together pull the items from the first one on, each
of them once; a call stops at a fault, and behind the end of input nothing is pulled any more. What stands there is of
no account, since a parser without it answers the same. -/

namespace Questionnaire

/-- The items up to the end of input, and with it. -/
def untilEnd : List Item → List Item
  | [] => []
  | .ok token :: items => if token.kind = .endOfInput then [.ok token] else .ok token :: untilEnd items
  | .error diagnostic :: items => .error diagnostic :: untilEnd items

/-- The items that calls of a new parser may come to: nothing behind a fault that comes first. -/
def withinReach : List Item → List Item
  | .error diagnostic :: _ => [.error diagnostic]
  | items => untilEnd items

theorem take_untilEnd (items : List Item) : (untilEnd items).take 1 = items.take 1 := by
  cases items with
  | nil => rfl
  | cons item items =>
      cases item with
      | ok token =>
          rw [untilEnd]
          split <;> rfl
      | error diagnostic => rfl

theorem take_withinReach (items : List Item) : (withinReach items).take 1 = items.take 1 := by
  unfold withinReach
  split
  · rfl
  · exact take_untilEnd _

theorem untilEnd_append {before : List Item} {last : Token} (hlast : last.kind = .endOfInput) (rest rest' : List Item) :
    untilEnd (before ++ .ok last :: rest) = untilEnd (before ++ .ok last :: rest') := by
  induction before with
  | nil => rw [List.nil_append, List.nil_append, untilEnd, untilEnd, if_pos hlast, if_pos hlast]
  | cons item before ih =>
      cases item with
      | ok token =>
          rw [List.cons_append, List.cons_append, untilEnd, untilEnd]
          split
          · rfl
          · rw [ih]
      | error diagnostic => rw [List.cons_append, List.cons_append, untilEnd, untilEnd, ih]

theorem withinReach_append {before : List Item} {last : Token} (hlast : last.kind = .endOfInput)
    (rest rest' : List Item) :
    withinReach (before ++ .ok last :: rest) = withinReach (before ++ .ok last :: rest') := by
  cases before with
  | nil => exact @untilEnd_append [] last hlast rest rest'
  | cons item before =>
      cases item with
      | ok token => exact @untilEnd_append (.ok token :: before) last hlast rest rest'
      | error diagnostic => rfl

/-- The answer to a call, and the parser that it leaves. -/
def Rule.outcome {α : Type} : Rule.Result α → Except Diagnostic α × Parser
  | .ok value after => (.ok value, after)
  | .error diagnostic after => (.error diagnostic, after)

namespace Parser

/-- The parser without the items that no call comes to. -/
def cut (parser : Parser) : Parser :=
  { parser with items :=
      if parser.current.kind = .endOfInput then if parser.started = true then [] else withinReach parser.items
      else untilEnd parser.items }

/-- The items that the next call pulls. -/
def taken (parser : Parser) : List Item := parser.items.take (parser.items.length - parser.parse.2.items.length)

variable {p : Parser}

theorem cut_ofItems (limits : Limits) (items : List Item) :
    (ofItems limits items).cut = ofItems limits (withinReach items) := rfl

theorem cut_of_open (h : p.current.kind ≠ .endOfInput) : p.cut = { p with items := untilEnd p.items } := by
  rw [cut, if_neg h]

theorem start_cut (hproper : p.Proper) : Rule.start p.cut = Rule.exiting cut (Rule.start p) := by
  obtain ⟨limits, items, current, previous, started, depth, links⟩ := p
  cases started with
  | true => rfl
  | false =>
      have hkind : current.kind = .endOfInput := hproper.resolve_left Bool.false_ne_true
      cases items with
      | nil => simp [Rule.start, Rule.fetch, Rule.refuse, Rule.exiting, cut, withinReach, untilEnd, hkind]
      | cons item items =>
          cases item with
          | ok token =>
              by_cases hend : token.kind = .endOfInput
              · simp [Rule.start, Rule.fetch, Rule.exiting, cut, withinReach, untilEnd, hkind, hend]
              · simp [Rule.start, Rule.fetch, Rule.exiting, cut, withinReach, untilEnd, hkind, hend]
          | error diagnostic => simp [Rule.start, Rule.fetch, Rule.exiting, cut, withinReach, hkind]

theorem shift_cut (hproper : p.Proper) : Rule.shift p.cut = Rule.exiting cut (Rule.shift p) := by
  obtain ⟨limits, items, current, previous, started, depth, links⟩ := p
  by_cases hkind : current.kind = .endOfInput
  · simp [Rule.shift, Rule.exiting, cut, hkind]
  · obtain rfl : started = true := hproper.resolve_right hkind
    cases items with
    | nil => simp [Rule.shift, Rule.fetch, Rule.refuse, Rule.exiting, cut, untilEnd, hkind]
    | cons item items =>
        cases item with
        | ok token =>
            by_cases hend : token.kind = .endOfInput
            · simp [Rule.shift, Rule.fetch, Rule.exiting, cut, untilEnd, hkind, hend]
            · simp [Rule.shift, Rule.fetch, Rule.exiting, cut, untilEnd, hkind, hend]
        | error diagnostic => simp [Rule.shift, Rule.fetch, Rule.exiting, cut, untilEnd, hkind]

/-- No reading comes to the items that are cut off. -/
theorem unseen_cut : Rule.Unseen cut where
  current _ := rfl
  previous _ := rfl
  limits _ := rfl
  started _ := rfl
  depth _ := rfl
  links _ := rfl
  deepen _ _ := rfl
  spend _ _ := rfl
  starting p hstarted := by
    rw [cut, if_neg (Bool.eq_false_iff.mp hstarted)]
    dsimp only
    split
    · exact take_withinReach p.items
    · exact take_untilEnd p.items
  shifting p hkind := by
    rw [cut_of_open hkind]
    exact take_untilEnd p.items
  start _ := start_cut
  shift _ := shift_cut

theorem unseen_id : Rule.Unseen id where
  current _ := rfl
  previous _ := rfl
  limits _ := rfl
  started _ := rfl
  depth _ := rfl
  links _ := rfl
  deepen _ _ := rfl
  spend _ _ := rfl
  starting _ _ := rfl
  shifting _ _ := rfl
  start p _ := (Rule.exiting_id (Rule.start p)).symm
  shift p _ := (Rule.exiting_id (Rule.shift p)).symm

theorem parse_eq_outcome (p : Parser) : p.parse = Rule.outcome (Rule.document p.limits.maxNesting p) := by
  unfold parse Rule.outcome
  cases Rule.document p.limits.maxNesting p <;> rfl

/-- A document is read to the same end at all levels that the limit leaves room for. -/
theorem document_of_le (hproper : p.Proper) {levels : Nat} (h : p.limits.maxNesting ≤ levels) :
    Rule.document levels p = Rule.document p.limits.maxNesting p := by
  have hlevels : Rule.SameLevels p.limits.maxNesting (p.limits.maxNesting + 1) (levels + 1) :=
    .inr ⟨Nat.lt_succ_self _, Nat.lt_succ_of_le h⟩
  have hfollows := (@Rule.Paced.document _ false none _ _ hlevels).follows unseen_id p.opensAtMost_maxNesting hproper
    nofun
  rwa [Rule.exiting_id] at hfollows

theorem runs_document (p : Parser) (levels : Nat) : ∃ pulled,
    Rule.Runs (Rule.document levels) p pulled [] (Rule.document levels p) := by
  have hlevels : Rule.SameLevels p.limits.maxNesting (levels + 1) (levels + 1) := .inl rfl
  obtain ⟨pulled, charged, hruns, -, hspends, -⟩ :=
    (@Rule.Paced.document _ false none _ _ hlevels).concludes p.opensAtMost_maxNesting nofun
  rw [hspends rfl] at hruns
  exact ⟨pulled, hruns⟩

theorem taken_of_runs {α : Type} {rule : Rule α} {pulled : List Item} {charged : List Token} {result : Rule.Result α}
    (h : Rule.Runs rule p pulled charged result) (hleft : leftBy result = p.parse.2) : p.taken = pulled := by
  have hitems := h.keeps.items
  rw [hleft] at hitems
  rw [taken, hitems, List.length_append, Nat.add_sub_cancel, List.take_left]

theorem runs_taken (p : Parser) :
    Rule.Runs (Rule.document p.limits.maxNesting) p p.taken [] (Rule.document p.limits.maxNesting p) := by
  obtain ⟨pulled, hruns⟩ := p.runs_document p.limits.maxNesting
  rwa [taken_of_runs hruns p.snd_parse.symm]

/-- A call of a parser is one of the parser without the items that no call comes to. -/
theorem parse_cut (hproper : p.Proper) : p.cut.parse = (p.parse.1, p.parse.2.cut) := by
  have hlevels : Rule.SameLevels p.limits.maxNesting (p.limits.maxNesting + 1) (p.limits.maxNesting + 1) := .inl rfl
  have hfollows := (@Rule.Paced.document _ false none _ _ hlevels).follows unseen_cut p.opensAtMost_maxNesting hproper
    nofun
  rw [parse_eq_outcome, parse_eq_outcome, show p.cut.limits = p.limits from rfl, hfollows]
  cases Rule.document p.limits.maxNesting p <;> rfl

theorem proper_parse (hproper : p.Proper) : p.parse.2.Proper := by
  rw [snd_parse]
  exact p.runs_taken.proper hproper

theorem parses_cut (hproper : p.Proper) (count : Nat) : p.cut.parses count = p.parses count := by
  induction count generalizing p with
  | zero => rfl
  | succ count ih =>
      rw [parses, parse_cut hproper]
      exact congrArg (p.parse.1 :: ·) (ih (proper_parse hproper))

variable {limits : Limits} {items : List Item}

theorem proper_called (limits : Limits) (items : List Item) (call : Nat) :
    ((ofItems limits items).called call).Proper := by
  induction call with
  | zero => exact .inr rfl
  | succ call ih =>
      rw [called_succ]
      exact proper_parse ih

theorem limits_called (limits : Limits) (items : List Item) (call : Nat) :
    ((ofItems limits items).called call).limits = limits := by
  induction call with
  | zero => rfl
  | succ call ih =>
      rw [called_succ, snd_parse]
      exact (runs_taken _).keeps.limits.trans ih

/-- The calls pull the items from the first one on. -/
theorem items_eq_taken (p : Parser) (count : Nat) :
    p.items = (List.range count).flatMap (fun call => (p.called call).taken) ++ (p.called count).items := by
  induction count with
  | zero => rfl
  | succ count ih =>
      have hitems := (p.called count).runs_taken.keeps.items
      rw [← snd_parse, ← called_succ] at hitems
      rw [List.range_succ, List.flatMap_append, List.flatMap_singleton, List.append_assoc, ← hitems]
      exact ih

theorem taken_of_ended (h : p.Ended) (more : Nat) : (p.called more).taken = [] := by
  induction more generalizing p with
  | zero => exact (p.runs_taken.ended h).1
  | succ more ih =>
      refine ih ?_
      rw [snd_parse]
      exact (p.runs_taken.ended h).2

theorem called_add (p : Parser) (call more : Nat) : p.called (call + more) = (p.called call).called more := by
  induction call generalizing p with
  | zero => rw [Nat.zero_add]; rfl
  | succ call ih =>
      rw [Nat.succ_add]
      exact ih p.parse.2

/-- Every call comes to an end without a bound on its rounds, at all levels of brackets that the limit leaves room for,
and charges nothing that it does not put back. Over all calls the items are pulled one by one from the first one on. A
fault and the end of input are the last item of their call, and once the end of input has been pulled no call pulls
another item: what is put behind it changes no answer. -/
theorem parses_pull_in_order (limits : Limits) (items : List Item) :
    (∀ call levels, limits.maxNesting ≤ levels → ∃ result,
      Rule.Runs (Rule.document levels) ((ofItems limits items).called call)
          ((ofItems limits items).called call).taken [] result ∧
        ((ofItems limits items).called call).parse = Rule.outcome result) ∧
    (∀ count, items = (List.range count).flatMap (fun call => ((ofItems limits items).called call).taken) ++
      ((ofItems limits items).called count).items) ∧
    (∀ call, ∀ item ∈ ((ofItems limits items).called call).taken.dropLast, item.isLast = false) ∧
    (∀ call last, .ok last ∈ ((ofItems limits items).called call).taken → last.kind = .endOfInput →
      ∀ later, call < later → ((ofItems limits items).called later).taken = []) ∧
    ∀ before last rest rest' count, last.kind = .endOfInput → items = before ++ .ok last :: rest →
      (ofItems limits (before ++ .ok last :: rest')).parses count = (ofItems limits items).parses count := by
  refine ⟨fun call levels hlevels => ?_, items_eq_taken (ofItems limits items), fun call => ?_, ?_, ?_⟩
  · have hdocument := @document_of_le _ (proper_called limits items call) levels (by rwa [limits_called])
    obtain ⟨pulled, hruns⟩ := ((ofItems limits items).called call).runs_document levels
    obtain rfl := taken_of_runs hruns (by rw [snd_parse, hdocument])
    exact ⟨_, hruns, by rw [parse_eq_outcome, hdocument]⟩
  · exact ((runs_taken _).settles (proper_called limits items call)).inside
  · intro call last hlast hkind later hlater
    have hended : ((ofItems limits items).called (call + 1)).Ended := by
      rw [called_succ, snd_parse]
      exact ((runs_taken _).settles (proper_called limits items call)).heeds _ hlast hkind
    obtain ⟨more, rfl⟩ := Nat.exists_eq_add_of_lt hlater
    have hcalls : call + more + 1 = call + 1 + more := by omega
    rw [hcalls, called_add]
    exact taken_of_ended hended more
  · rintro before last rest rest' count hkind rfl
    have hproper (items : List Item) : (ofItems limits items).Proper := .inr rfl
    rw [← parses_cut (hproper _), ← @parses_cut (ofItems limits (before ++ .ok last :: rest)) (hproper _), cut_ofItems,
      cut_ofItems, withinReach_append hkind rest rest']

/-- A fault behind the end of input is never met. -/
theorem parses_pull_in_order_interlude :
    let opening : Item := .ok ⟨.logicOpen, "<%", ⟨1, 1⟩⟩
    let closing : Item := .ok ⟨.logicClose, "%>", ⟨1, 4⟩⟩
    let last : Token := ⟨.endOfInput, "", ⟨1, 6⟩⟩
    let parser := ofItems .standard [opening, closing, .ok last, .error ⟨.unterminatedString, ⟨2, 1⟩⟩]
    (parser.called 0).taken = [opening, closing, .ok last] ∧
      (∃ result, Rule.Runs (Rule.document 100) (parser.called 0) (parser.called 0).taken [] result ∧
        (parser.called 0).parse = Rule.outcome result) ∧
      (∀ later, 0 < later → (parser.called later).taken = []) ∧
      ∀ rest count,
        (ofItems .standard ([opening, closing] ++ .ok last :: rest)).parses count = parser.parses count := by
  intro opening closing last parser
  have htaken : (parser.called 0).taken = [opening, closing, .ok last] := by cbv
  have hpulls := parses_pull_in_order .standard [opening, closing, .ok last, .error ⟨.unterminatedString, ⟨2, 1⟩⟩]
  refine ⟨htaken, hpulls.1 0 100 (by decide), hpulls.2.2.2.1 0 last (by rw [htaken]; decide) rfl, fun rest count => ?_⟩
  exact hpulls.2.2.2.2 [opening, closing] last [.error ⟨.unterminatedString, ⟨2, 1⟩⟩] rest count rfl rfl

end Parser

end Questionnaire
