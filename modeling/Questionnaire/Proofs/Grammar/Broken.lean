import Questionnaire.Proofs.Grammar.Acceptance
import Questionnaire.Proofs.Grammar.Composed

/-! Streams that break off. A stream that ends with a fault of the supplier is compared with one that ends in its
place. Readings of the two go together as long as they do not come to the end; then the one stops at the fault of the
supplier, and the other takes nothing more, so that it finds fault with the end or with nothing. -/

namespace Questionnaire

/-- The end of input in the place of a fault. -/
def Diagnostic.ending (diagnostic : Diagnostic) : Token := ⟨.endOfInput, "", diagnostic.position⟩

/-- The token stands before the fault, and can be read if it is a number. -/
structure Token.Precedes (diagnostic : Diagnostic) (token : Token) : Prop where
  kind : token.kind ≠ .endOfInput
  position : token.position ≠ diagnostic.position
  legible : token.kind = .number → (Double.read? token.text.toList).isSome = true

/-- The second parser is the first one, on a stream that ends where that of the first breaks off. -/
inductive Parser.Broken (diagnostic : Diagnostic) : Parser → Parser → Prop where
  | mk {p : Parser} {tokens : List Token} (hitems : p.items = tokens.map .ok ++ [.error diagnostic])
      (hcurrent : p.current.Precedes diagnostic) (htokens : ∀ token ∈ tokens, token.Precedes diagnostic) :
      Broken diagnostic p { p with items := tokens.map .ok ++ [.ok diagnostic.ending] }

namespace Rule

variable {α β : Type} {diagnostic : Diagnostic} {last : Token} {rule : Rule α} {p p' : Parser}

/-- A reading stays at the last token, or finds fault with it. -/
inductive Ended (last : Token) : EStateM.Result Diagnostic Parser α → Prop where
  | ok {value : α} {q : Parser} (hcurrent : q.current = last) : Ended last (.ok value q)
  | error {fault : Diagnostic} {q : Parser} (hposition : fault.position = last.position) : Ended last (.error fault q)

/-- How readings of the two streams may end. -/
inductive Parts (diagnostic : Diagnostic) :
    EStateM.Result Diagnostic Parser α → EStateM.Result Diagnostic Parser α → Prop where
  | together {value : α} {q q' : Parser} (h : q.Broken diagnostic q') : Parts diagnostic (.ok value q) (.ok value q')
  | refused {fault : Diagnostic} {q q' : Parser} (hposition : fault.position ≠ diagnostic.position) :
      Parts diagnostic (.error fault q) (.error fault q')
  | broken {q : Parser} {result : EStateM.Result Diagnostic Parser α} (h : Ended diagnostic.ending result) :
      Parts diagnostic (.error diagnostic q) result

theorem ended_bind {next : α → Rule β} (h : Ended last (rule p))
    (hnext : ∀ value q, q.current = last → Ended last (next value q)) : Ended last ((rule >>= next) p) := by
  change Ended last (EStateM.bind rule next p)
  unfold EStateM.bind
  generalize rule p = result at h
  cases h with
  | ok hcurrent => exact hnext _ _ hcurrent
  | error hposition => exact .error hposition

theorem ended_leaving {exit : Parser → Parser} (h : Ended last (rule p))
    (hexit : ∀ after, (exit after).current = after.current) : Ended last (leaving exit rule p) := by
  unfold leaving
  generalize rule p = result at h
  cases h with
  | ok hcurrent => exact .ok ((hexit _).trans hcurrent)
  | error hposition => exact .error hposition

theorem ended_refuse (fault : Fault) (hcurrent : p.current = last) : Ended last (refuse (α := α) fault p) :=
  .error (congrArg Token.position hcurrent)

theorem ended_rounds {offer : Token → Option (Rule α)} (hround : ∀ rule ∈ offer last, ∀ p : Parser,
    p.current = last → Ended last (rule p)) (fuel : List Item) (hcurrent : p.current = last) :
    Ended last (rounds offer fuel p) := by
  induction fuel generalizing p with
  | nil =>
      rw [rounds, current_bind, hcurrent]
      cases hoffer : offer last with
      | none => exact .ok hcurrent
      | some round => exact ended_bind (hround _ hoffer p hcurrent) fun _ _ hq => .ok hq
  | cons item fuel ih =>
      rw [rounds, current_bind, hcurrent]
      cases hoffer : offer last with
      | none => exact .ok hcurrent
      | some round =>
          exact ended_bind (hround _ hoffer p hcurrent) fun _ _ hq => ended_bind (ih hq) fun _ _ hr => .ok hr

/-- Nothing is taken behind the end of input. -/
theorem ComposedAt.ended {ahead : Option Token} (h : ComposedAt ahead rule) (hahead : ∀ token ∈ ahead, token = last)
    (hlast : last.kind = .endOfInput) (hcurrent : p.current = last) : Ended last (rule p) := by
  induction h generalizing p with
  | pure value => exact .ok hcurrent
  | bind _ _ ih ihNext => exact ended_bind (ih hahead hcurrent) fun value q hq => ihNext value nofun hq
  | look _ ih => exact ih p.current (fun _ h => (Option.some.inj h).symm.trans hcurrent) hcurrent
  | current => exact .ok hcurrent
  | shift =>
      unfold Rule.shift
      rw [if_pos (hcurrent ▸ hlast)]
      exact .ok hcurrent
  | charge =>
      unfold Rule.charge
      split
      · exact ended_refuse _ hcurrent
      · exact .ok hcurrent
  | spanSince first => exact .ok hcurrent
  | number hkind =>
      rw [hahead _ rfl, hlast] at hkind
      cases hkind
  | refuse => exact ended_refuse _ hcurrent
  | bracketed _ ih =>
      unfold Rule.bracketed
      split
      · exact ended_refuse _ hcurrent
      · exact ended_leaving (ih hahead hcurrent) fun _ => rfl
  | budgeted _ ih => exact ended_leaving (ih hahead hcurrent) fun _ => rfl
  | repeatWhile _ ih =>
      refine ended_rounds (fun rule hrule q => ?_) p.items hcurrent
      exact ih last rule hrule fun _ h => (Option.some.inj h).symm

theorem parts_bind {next : α → Rule β} (h : Parts diagnostic (rule p) (rule p'))
    (hnext : ∀ value q q', q.Broken diagnostic q' → Parts diagnostic (next value q) (next value q'))
    (hended : ∀ value q, q.current = diagnostic.ending → Ended diagnostic.ending (next value q)) :
    Parts diagnostic ((rule >>= next) p) ((rule >>= next) p') := by
  change Parts diagnostic (EStateM.bind rule next p) (EStateM.bind rule next p')
  unfold EStateM.bind
  generalize rule p = result at h
  generalize rule p' = result' at h
  cases h with
  | together h => exact hnext _ _ _ h
  | refused hposition => exact .refused hposition
  | broken h =>
      cases h with
      | ok hcurrent => exact .broken (hended _ _ hcurrent)
      | error hposition => exact .broken (.error hposition)

theorem parts_leaving {exit : Parser → Parser} (h : Parts diagnostic (rule p) (rule p'))
    (hexit : ∀ q q', q.Broken diagnostic q' → (exit q).Broken diagnostic (exit q'))
    (hcurrent : ∀ after, (exit after).current = after.current) :
    Parts diagnostic (leaving exit rule p) (leaving exit rule p') := by
  unfold leaving
  generalize rule p = result at h
  generalize rule p' = result' at h
  cases h with
  | together h => exact .together (hexit _ _ h)
  | refused hposition => exact .refused hposition
  | broken h =>
      cases h with
      | ok hq => exact .broken (.ok ((hcurrent _).trans hq))
      | error hposition => exact .broken (.error hposition)

theorem parts_refuse (fault : Fault) (h : p.Broken diagnostic p') :
    Parts diagnostic (refuse (α := α) fault p) (refuse fault p') := by
  cases h with
  | mk _ hcurrent _ => exact .refused hcurrent.position

theorem parts_shift (h : p.Broken diagnostic p') : Parts diagnostic (shift p) (shift p') := by
  cases h with
  | @mk tokens hitems hcurrent htokens =>
      unfold shift
      rw [if_neg hcurrent.kind, if_neg hcurrent.kind]
      unfold fetch
      rw [hitems]
      cases tokens with
      | nil => exact .broken (.ok rfl)
      | cons token tokens =>
          rw [List.forall_mem_cons] at htokens
          exact .together (.mk rfl htokens.1 htokens.2)

theorem current_of_broken (h : p.Broken diagnostic p') : p'.current = p.current := by
  cases h
  rfl

theorem parts_number (h : p.Broken diagnostic p') (hkind : p.current.kind = .number) :
    Parts diagnostic (number p) (number p') := by
  obtain ⟨value, hvalue⟩ : ∃ value, Double.read? p.current.text.toList = some value := by
    cases h with
    | mk _ hcurrent _ => exact Option.isSome_iff_exists.mp (hcurrent.legible hkind)
  rw [number, current_bind, current_bind, current_of_broken h]
  refine parts_bind (parts_shift h) (fun _ q q' hq => ?_) fun _ q hq => ?_
  · rw [hvalue]
    exact .together hq
  · rw [hvalue]
    exact .ok hq

theorem parts_rounds {offer : Token → Option (Rule α)}
    (hoffer : ∀ token, ∀ rule ∈ offer token, ComposedAt (some token) rule)
    (hround : ∀ p p' : Parser, ∀ rule ∈ offer p.current, p.Broken diagnostic p' →
      Parts diagnostic (rule p) (rule p')) (fuel : List Item) (h : p.Broken diagnostic p') :
    Parts diagnostic (rounds offer fuel p) (rounds offer fuel p') := by
  have hended (fuel : List Item) (q : Parser) (hq : q.current = diagnostic.ending) :
      Ended diagnostic.ending (rounds offer fuel q) :=
    ended_rounds (fun rule hrule p => (hoffer _ rule hrule).ended (fun _ h => (Option.some.inj h).symm) rfl) fuel hq
  induction fuel generalizing p p' with
  | nil =>
      rw [rounds, current_bind, current_bind, current_of_broken h]
      cases hnext : offer p.current with
      | none => exact .together h
      | some round =>
          exact parts_bind (hround p p' _ hnext h) (fun _ _ _ hq => .together hq) fun _ _ hq => .ok hq
  | cons item fuel ih =>
      rw [rounds, current_bind, current_bind, current_of_broken h]
      cases hnext : offer p.current with
      | none => exact .together h
      | some round =>
          refine parts_bind (hround p p' _ hnext h) (fun value q q' hq => ?_) fun value q hq => ?_
          · exact parts_bind (ih hq) (fun _ _ _ hr => .together hr) fun _ _ hr => .ok hr
          · exact ended_bind (hended fuel q hq) fun _ _ hr => .ok hr

/-- The items bound the number of rounds by their number alone. -/
theorem rounds_of_length {offer : Token → Option (Rule α)} {fuel fuel' : List Item}
    (h : fuel.length = fuel'.length) : rounds offer fuel = rounds offer fuel' := by
  induction fuel generalizing fuel' with
  | nil => rw [List.eq_nil_of_length_eq_zero h.symm]
  | cons item fuel ih =>
      obtain ⟨item', fuel', rfl⟩ := List.exists_cons_of_length_pos (by rw [← h]; exact Nat.succ_pos _)
      rw [rounds, rounds, ih (Nat.succ.inj h)]

/-- Every reading of the grammar goes together on the two streams up to where the first breaks off. -/
theorem ComposedAt.parts {ahead : Option Token} (h : ComposedAt ahead rule)
    (hahead : ∀ token ∈ ahead, p.current = token) (hbroken : p.Broken diagnostic p') :
    Parts diagnostic (rule p) (rule p') := by
  induction h generalizing p p' with
  | pure value => exact .together hbroken
  | bind _ hnext ih ihNext =>
      refine parts_bind (ih hahead hbroken) (fun value _ _ hq => ihNext value nofun hq) fun value _ hq => ?_
      exact (hnext value).ended nofun rfl hq
  | look _ ih =>
      rw [current_bind, current_bind, current_of_broken hbroken]
      exact ih p.current (fun _ => Option.some.inj) hbroken
  | current =>
      change Parts diagnostic (.ok p.current p) (.ok p'.current p')
      rw [current_of_broken hbroken]
      exact .together hbroken
  | shift => exact parts_shift hbroken
  | charge =>
      cases hbroken with
      | mk hitems hcurrent htokens =>
          unfold Rule.charge
          dsimp only
          split
          · exact .refused hcurrent.position
          · exact .together (.mk hitems hcurrent htokens)
  | spanSince first =>
      cases hbroken with
      | mk hitems hcurrent htokens => exact .together (.mk hitems hcurrent htokens)
  | number hkind => exact parts_number hbroken ((hahead _ rfl).symm ▸ hkind)
  | refuse => exact parts_refuse _ hbroken
  | bracketed _ ih =>
      cases hbroken with
      | mk hitems hcurrent htokens =>
          unfold Rule.bracketed
          dsimp only
          split
          · exact .refused hcurrent.position
          · refine parts_leaving (ih hahead (.mk hitems hcurrent htokens)) (fun q q' hq => ?_) fun _ => rfl
            cases hq with
            | mk hitems hcurrent htokens => exact .mk hitems hcurrent htokens
  | budgeted _ ih =>
      cases hbroken with
      | mk hitems hcurrent htokens =>
          refine parts_leaving (ih hahead (.mk hitems hcurrent htokens)) (fun q q' hq => ?_) fun _ => rfl
          cases hq with
          | mk hitems hcurrent htokens => exact .mk hitems hcurrent htokens
  | repeatWhile hoffer ih =>
      have hlength : p'.items.length = p.items.length := by
        cases hbroken with
        | mk hitems _ _ => rw [hitems, List.length_append, List.length_append]; rfl
      rw [Rule.repeatWhile, Rule.repeatWhile, rounds_of_length hlength]
      refine parts_rounds hoffer (fun q q' rule hrule => ?_) p.items hbroken
      exact ih q.current rule hrule fun _ => Option.some.inj

/-- Whole documents. What is read up to the end is more than the tokens before the fault. -/
theorem parts_document {limits : Limits} {tokens : List Token} (h : ∀ token ∈ tokens, token.Precedes diagnostic) :
    Parts diagnostic (document limits.maxNesting (.ofItems limits (tokens.map .ok ++ [.error diagnostic])))
      (document limits.maxNesting (.ofItems limits (tokens.map .ok ++ [.ok diagnostic.ending]))) := by
  have hcomponents := Composed.components limits.maxNesting
  refine parts_bind ?_ (fun _ q q' hq => ?_) fun _ q hq => ?_
  · cases tokens with
    | nil => exact .broken (.ok rfl)
    | cons token tokens =>
        rw [List.forall_mem_cons] at h
        exact .together (.mk rfl h.1 h.2)
  · exact parts_bind ((hcomponents none).parts nofun hq) (fun _ _ _ hr => .together hr) fun _ _ hr => .ok hr
  · exact ended_bind ((hcomponents none).ended nofun rfl hq) fun _ _ hr => .ok hr

end Rule

namespace Parser

variable {tokens : List Token} {diagnostic : Diagnostic}

/-- Either a token before the fault is to blame on both streams, or the one reading stops at the fault and the other at
nothing before it. -/
theorem parse_broken (limits : Limits) (h : ∀ token ∈ tokens, token.Precedes diagnostic) :
    (∃ fault : Diagnostic, fault.position ≠ diagnostic.position ∧
      (ofItems limits (tokens.map .ok ++ [.error diagnostic])).parse.1 = .error fault ∧
      (ofItems limits (tokens.map .ok ++ [.ok diagnostic.ending])).parse.1 = .error fault) ∨
    (ofItems limits (tokens.map .ok ++ [.error diagnostic])).parse.1 = .error diagnostic ∧
      ∀ fault, (ofItems limits (tokens.map .ok ++ [.ok diagnostic.ending])).parse.1 = .error fault →
        fault.position = diagnostic.position := by
  have hparts : Rule.Parts diagnostic
      (Rule.document limits.maxNesting (.ofItems limits (tokens.map .ok ++ [.error diagnostic]))) _ :=
    Rule.parts_document h
  rw [parse_fst, parse_fst]
  cases hread : Rule.document limits.maxNesting (.ofItems limits (tokens.map .ok ++ [.error diagnostic])) with
  | ok document q =>
      -- a document is read up to the end of input, which is not among the tokens
      obtain ⟨_, _, taken, -, -, hderived⟩ := Rule.document_eq_ok.mp hread
      obtain ⟨before, last, hsplit, hlast⟩ := components_split hderived
      obtain ⟨-, hcurrent⟩ := List.append_inj' hsplit rfl
      cases hcurrent
      rw [hread] at hparts
      generalize Rule.document limits.maxNesting (.ofItems limits (tokens.map .ok ++ [.ok diagnostic.ending])) = other
        at hparts
      cases hparts with
      | together hbroken =>
          cases hbroken with
          | mk _ hcurrent _ => exact absurd hlast hcurrent.kind
  | error fault q =>
      rw [hread] at hparts
      generalize Rule.document limits.maxNesting (.ofItems limits (tokens.map .ok ++ [.ok diagnostic.ending])) = other
        at hparts ⊢
      cases hparts with
      | refused hposition => exact .inl ⟨fault, hposition, rfl, rfl⟩
      | broken hended =>
          refine .inr ⟨rfl, fun fault hfault => ?_⟩
          cases hended with
          | ok => cases hfault
          | error hposition =>
              cases hfault
              exact hposition

end Parser

end Questionnaire
