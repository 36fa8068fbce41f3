import Mathlib
import Questionnaire.Proofs.Grammar.Contents
import Questionnaire.Proofs.Grammar.Document
import Questionnaire.Proofs.Grammar.Limits
import Questionnaire.Proofs.Grammar.Measure
import Questionnaire.Proofs.Token.Stream

/-! Which sources are documents. A source is read as a document exactly if its tokens derive that document within the
limits, so that reading is sound and complete for the grammar. Limits do no more than that: what they ask for can be
told from the tokens and the tree, and a source that is turned down for them alone is said to be too deep. -/

namespace Questionnaire

namespace Rule

variable {limits : Limits} {items : List Item} {q : Parser}

theorem start_ofItems_eq_ok :
    start (.ofItems limits items) = .ok () q ↔ ∃ first rest, items = .ok first :: rest ∧
      q = ⟨limits, rest, first, Parser.placeholder, true, 0, 0⟩ := by
  unfold start fetch
  rw [if_neg (by simp [Parser.ofItems])]
  cases items with
  | nil =>
      constructor
      · intro h
        cases h
      · rintro ⟨_, _, h, -⟩
        cases h
  | cons item rest =>
      cases item with
      | error diagnostic =>
          constructor
          · intro h
            cases h
          · rintro ⟨_, _, h, -⟩
            cases h
      | ok first =>
          constructor
          · intro h
            cases h
            exact ⟨first, rest, rfl, rfl⟩
          · rintro ⟨_, _, h, rfl⟩
            cases h
            rfl

/-- A document is read up to the first end of input, and derived from the tokens up to there. -/
theorem document_eq_ok {document : Document} :
    Rule.document limits.maxNesting (.ofItems limits items) = .ok document q ↔
      ∃ first rest tokens, items = .ok first :: rest ∧
        Parser.Takes ⟨limits, rest, first, Parser.placeholder, true, 0, 0⟩ tokens 0 q ∧
        document.Derived .operation limits.maxNesting limits.maxExpressionDepth (tokens ++ [q.current]) := by
  have hrooms (first : Token) (rest : List Item) : Parser.HasRoom ⟨limits, rest, first, Parser.placeholder, true, 0, 0⟩
      limits.maxNesting limits.maxExpressionDepth := ⟨Nat.zero_add _, rfl⟩
  constructor
  · intro h
    obtain ⟨_, p, hstart, h⟩ := bind_eq_ok.mp h
    obtain ⟨first, rest, rfl, rfl⟩ := start_ofItems_eq_ok.mp hstart
    obtain ⟨components, q, hcomponents, hpure⟩ := bind_eq_ok.mp h
    obtain ⟨rfl, rfl⟩ := pure_eq_ok.mp hpure
    have hloops := (soundRounds_component.repeatWhile_eq_ok (hrooms first rest)).mp hcomponents
    obtain ⟨tokens, htakes, hderived⟩ := (loops_component_iff (hrooms first rest)).mp hloops
    exact ⟨first, rest, tokens, rfl, htakes, hderived⟩
  · rintro ⟨first, rest, tokens, rfl, htakes, hderived⟩
    have hloops := (loops_component_iff (hrooms first rest)).mpr ⟨tokens, htakes, hderived⟩
    refine bind_eq_ok.mpr ⟨(), _, start_ofItems_eq_ok.mpr ⟨first, rest, rfl, rfl⟩, ?_⟩
    refine bind_eq_ok.mpr ⟨document.components, q, ?_, pure_eq_ok.mpr ⟨rfl, rfl⟩⟩
    exact (soundRounds_component.repeatWhile_eq_ok (hrooms first rest)).mpr hloops

end Rule

theorem components_split {room budget : Nat} {components : List Component} {tokens : List Token}
    (h : Components .operation room budget components tokens) :
    ∃ before last, tokens = before ++ [last] ∧ last.kind = .endOfInput := by
  induction h with
  | @nil last hlast => exact ⟨[], last, rfl, hlast⟩
  | cons _ _ ih =>
      obtain ⟨before, last, hbefore, hlast⟩ := ih
      rw [hbefore, ← List.append_assoc]
      exact ⟨_, last, rfl, hlast⟩

namespace Document

variable {limits : Limits} {source : String} {document : Document}

/-- Tokens are read as the document that they derive within the limits. -/
theorem Derived.document_eq_ok {tokens : List Token}
    (h : document.Derived .operation limits.maxNesting limits.maxExpressionDepth tokens) :
    ∃ q, Rule.document limits.maxNesting (.ofItems limits (tokens.map .ok)) = .ok document q := by
  obtain ⟨before, last, rfl, hlast⟩ := components_split h
  obtain ⟨first, rest, hcons⟩ : ∃ first rest, before ++ [last] = first :: rest :=
    List.exists_cons_of_ne_nil (by simp)
  refine ⟨⟨limits, [], last, before.getLastD Parser.placeholder, true, 0, 0⟩, Rule.document_eq_ok.mpr ?_⟩
  refine ⟨first, rest.map .ok, before, by rw [hcons]; rfl, ⟨?_, rfl, rfl, by simp, rfl, rfl, rfl⟩, h⟩
  have hmap : before.map Except.ok ++ [.ok last] = (.ok first :: rest.map .ok : List Item) := by
    rw [← List.map_cons, ← hcons, List.map_append]
    rfl
  exact hmap.symm

/-- A source is read as the documents that its tokens derive within the limits. -/
theorem parse_eq_ok_iff_derived : Document.parse limits source = .ok document ↔
    ∃ tokens, tokenize source = .ok tokens ∧
      document.Derived .operation limits.maxNesting limits.maxExpressionDepth tokens := by
  rw [Document.parse_eq_ok_iff]
  simp only [tokenize_eq_ok_iff]
  constructor
  · rintro ⟨q, h⟩
    obtain ⟨first, rest, tokens, hitems, htakes, hderived⟩ := Rule.document_eq_ok.mp h
    refine ⟨tokens ++ [q.current], ?_, hderived⟩
    have hstream : itemsOf source = tokens.map .ok ++ .ok q.current :: q.items := by
      rw [hitems]
      exact htakes.stream
    obtain ⟨before, last, hsplit, hlast⟩ := components_split hderived
    obtain ⟨-, hcurrent⟩ := List.append_inj' hsplit rfl
    cases hcurrent
    rw [hstream, eq_nil_of_itemsOf hstream hlast, List.map_append]
    rfl
  · rintro ⟨tokens, hitems, hderived⟩
    rw [hitems]
    exact hderived.document_eq_ok

/-- Limits as wide as there are tokens are no limits. A source whose tokens derive a document is read as that one,
and then all that the tokens say is in the document, in their order. -/
theorem parse_eq_ok_iff_grammar {tokens : List Token} (htokens : tokenize source = .ok tokens)
    (hnesting : tokens.length ≤ limits.maxNesting) (hdepth : tokens.length ≤ limits.maxExpressionDepth) :
    (Document.parse limits source = .ok document ↔ ∃ room budget, document.Derived .operation room budget tokens) ∧
      (Document.parse limits source = .ok document → document.Holds (contentsOf tokens)) := by
  have hparse : Document.parse limits source = .ok document ↔
      document.Derived .operation limits.maxNesting limits.maxExpressionDepth tokens := by
    rw [parse_eq_ok_iff_derived, htokens]
    simp
  refine ⟨?_, fun h => (hparse.mp h).holds⟩
  rw [hparse]
  constructor
  · intro h
    exact ⟨_, _, h⟩
  · rintro ⟨room, budget, h⟩
    refine (h.derived_iff _ _).mpr ⟨Nat.le_trans (nesting_le tokens) hnesting, fun root hroot => ?_⟩
    exact Nat.le_trans (h.charges_le root hroot) hdepth

theorem parse_eq_ok_iff_grammar_assignment :
    let target : Token := ⟨.identifier, "a", ⟨1, 4⟩⟩
    let value : Token := ⟨.identifier, "b", ⟨1, 8⟩⟩
    let opening : Token := ⟨.logicOpen, "<%", ⟨1, 1⟩⟩
    let closing : Token := ⟨.logicClose, "%>", ⟨1, 10⟩⟩
    let tokens := [opening, target, ⟨.operator, "=", ⟨1, 6⟩⟩, value, closing, ⟨.endOfInput, "", ⟨1, 12⟩⟩]
    let statement : Statement :=
      .simple ⟨.assign target (.symbol value (.single value)) ⟨target, value⟩, ⟨target, value⟩⟩
    let document : Document := ⟨[.interlude ⟨[statement], ⟨opening, closing⟩⟩]⟩
    tokenize "<% a = b %>" = .ok tokens ∧ tokens.length ≤ 6 ∧
      Document.parse ⟨6, 6⟩ "<% a = b %>" = .ok document ∧
      (∃ room budget, document.Derived .operation room budget tokens) ∧ document.Holds (contentsOf tokens) := by
  intro target value opening closing tokens statement document
  have htokens : tokenize "<% a = b %>" = .ok tokens := by cbv
  have hparse : Document.parse ⟨6, 6⟩ "<% a = b %>" = .ok document := by cbv
  have hgrammar : (Document.parse ⟨6, 6⟩ "<% a = b %>" = .ok document ↔ _) ∧ (_ → _) :=
    parse_eq_ok_iff_grammar htokens (by decide) (by decide)
  exact ⟨htokens, by decide, hparse, hgrammar.1.mp hparse, hgrammar.2 hparse⟩

/-- An expression for the value of a declaration makes the grammar wider: there that value may assign without brackets
around it, and a source in which it does is not read. -/
theorem exists_derived_not_parsed :
    let opening : Token := ⟨.logicOpen, "<%", ⟨1, 1⟩⟩
    let first : Token := ⟨.keyword, "def", ⟨1, 4⟩⟩
    let name : Token := ⟨.identifier, "a", ⟨1, 8⟩⟩
    let target : Token := ⟨.identifier, "b", ⟨1, 12⟩⟩
    let value : Token := ⟨.identifier, "c", ⟨1, 16⟩⟩
    let closing : Token := ⟨.logicClose, "%>", ⟨1, 18⟩⟩
    let tokens := [opening, first, name, ⟨.operator, "=", ⟨1, 10⟩⟩, target, ⟨.operator, "=", ⟨1, 14⟩⟩, value, closing,
      ⟨.endOfInput, "", ⟨1, 20⟩⟩]
    let assigned : Expr := .assign target (.symbol value (.single value)) ⟨target, value⟩
    let document : Document :=
      ⟨[.interlude ⟨[.declaration name (some assigned) ⟨first, value⟩], ⟨opening, closing⟩⟩]⟩
    tokenize "<% def a = b = c %>" = .ok tokens ∧ tokens.length ≤ 9 ∧
      (∃ room budget, document.Derived .expression room budget tokens) ∧
      Document.parse ⟨9, 9⟩ "<% def a = b = c %>" = .error ⟨.unexpectedToken "=", ⟨1, 14⟩⟩ := by
  intro opening first name target value closing tokens assigned document
  have hname {token : Token} (hkind : token.kind = .identifier) :
      Derives 0 (.operation (.symbol token (.single token))) [token] := .operation_of_operand (.reference hkind .nil)
  have hassigned : Derives 0 (.expression assigned) [target, ⟨.operator, "=", ⟨1, 14⟩⟩, value] :=
    .assign (hname rfl) rfl (hname rfl)
  have hdeclaration : Logic .expression 0 0 (.bare (.declaration name (some assigned) ⟨first, value⟩))
      [first, name, ⟨.operator, "=", ⟨1, 10⟩⟩, target, ⟨.operator, "=", ⟨1, 14⟩⟩, value] :=
    .definition rfl rfl rfl hassigned (Nat.le_refl 0)
  have hderived : document.Derived .expression 0 0 tokens :=
    .cons (.interlude rfl (.statements (.unended hdeclaration) .noStatements) rfl) (.nil rfl)
  exact ⟨by cbv, by decide, ⟨0, 0, hderived⟩, by cbv⟩

/-- What is read is a document of the wider grammar, too. -/
theorem derived_expression_of_parse (h : Document.parse limits source = .ok document) :
    ∃ tokens, tokenize source = .ok tokens ∧
      document.Derived .expression limits.maxNesting limits.maxExpressionDepth tokens := by
  obtain ⟨tokens, htokens, hderived⟩ := parse_eq_ok_iff_derived.mp h
  exact ⟨tokens, htokens, hderived.wider⟩

/-- The limits are exact, and invisible otherwise. A source that is read as a document under some limits is read as
the same one under all others that leave room for the brackets of its tokens and for the operators and members of
each root of the document. Under those that do not, its nesting is too deep. -/
theorem parse_under_limits (h : Document.parse limits source = .ok document) :
    ∃ tokens, tokenize source = .ok tokens ∧
      (∀ other : Limits, if nesting tokens ≤ other.maxNesting ∧
          ∀ root ∈ document.roots, Expr.charges root ≤ other.maxExpressionDepth
        then Document.parse other source = .ok document
        else ∃ diagnostic, Document.parse other source = .error diagnostic ∧ diagnostic.kind = "Syntax" ∧
          diagnostic.message = "nesting too deep") ∧
      ∀ wider : Limits, limits.maxNesting ≤ wider.maxNesting →
        limits.maxExpressionDepth ≤ wider.maxExpressionDepth → Document.parse wider source = .ok document := by
  obtain ⟨tokens, htokens, hderived⟩ := parse_eq_ok_iff_derived.mp h
  have hiff (other : Limits) : Document.parse other source = .ok document ↔ nesting tokens ≤ other.maxNesting ∧
      ∀ root ∈ document.roots, Expr.charges root ≤ other.maxExpressionDepth := by
    rw [parse_eq_ok_iff_derived, htokens, ← hderived.derived_iff]
    simp
  have hneeds := (hiff limits).mp h
  have hwider (wider : Limits) (hnesting : limits.maxNesting ≤ wider.maxNesting)
      (hdepth : limits.maxExpressionDepth ≤ wider.maxExpressionDepth) :
      Document.parse wider source = .ok document :=
    (hiff wider).mpr ⟨Nat.le_trans hneeds.1 hnesting, fun root hroot => Nat.le_trans (hneeds.2 root hroot) hdepth⟩
  refine ⟨tokens, htokens, fun other => ?_, hwider⟩
  by_cases henough : nesting tokens ≤ other.maxNesting ∧
      ∀ root ∈ document.roots, Expr.charges root ≤ other.maxExpressionDepth
  · rw [if_pos henough]
    exact (hiff other).mpr henough
  · rw [if_neg henough]
    -- limits wider than both tell what the narrow ones would have read
    obtain ⟨wider, hwiderOf, hwiderThan⟩ : ∃ wider : Limits, Document.parse wider source = .ok document ∧
        other.maxNesting ≤ wider.maxNesting ∧ other.maxExpressionDepth ≤ wider.maxExpressionDepth :=
      ⟨⟨max limits.maxNesting other.maxNesting, max limits.maxExpressionDepth other.maxExpressionDepth⟩,
        hwider _ (Nat.le_max_left _ _) (Nat.le_max_left _ _), Nat.le_max_right _ _, Nat.le_max_right _ _⟩
    rcases parse_eq_or_tooDeep source hwiderThan.1 hwiderThan.2 with hsame | ⟨position, hdeep⟩
    · rw [hwiderOf] at hsame
      exact absurd ((hiff other).mp hsame) henough
    · exact ⟨_, hdeep, rfl, rfl⟩

theorem parse_under_limits_group :
    let name : Token := ⟨.identifier, "a", ⟨1, 5⟩⟩
    let member : Token := ⟨.identifier, "b", ⟨1, 7⟩⟩
    let opening : Token := ⟨.punctuation, "(", ⟨1, 4⟩⟩
    let closing : Token := ⟨.punctuation, ")", ⟨1, 8⟩⟩
    let statement : Statement :=
      .simple ⟨.property (.symbol name (.single name)) member ⟨opening, closing⟩, ⟨opening, closing⟩⟩
    let document : Document :=
      ⟨[.interlude ⟨[statement], ⟨⟨.logicOpen, "<%", ⟨1, 1⟩⟩, ⟨.logicClose, "%>", ⟨1, 10⟩⟩⟩⟩]⟩
    Document.parse ⟨9, 9⟩ "<% (a.b) %>" = .ok document ∧ Document.parse ⟨1, 1⟩ "<% (a.b) %>" = .ok document ∧
      ∃ diagnostic, Document.parse ⟨1, 0⟩ "<% (a.b) %>" = .error diagnostic ∧ diagnostic.kind = "Syntax" ∧
        diagnostic.message = "nesting too deep" := by
  intro name member opening closing statement document
  have hparse : Document.parse ⟨9, 9⟩ "<% (a.b) %>" = .ok document := by cbv
  have hknown : tokenize "<% (a.b) %>" = .ok [⟨.logicOpen, "<%", ⟨1, 1⟩⟩, opening, name,
      ⟨.punctuation, ".", ⟨1, 6⟩⟩, member, closing, ⟨.logicClose, "%>", ⟨1, 10⟩⟩,
      ⟨.endOfInput, "", ⟨1, 12⟩⟩] := by cbv
  obtain ⟨tokens, htokens, hlimits, -⟩ := parse_under_limits hparse
  rw [hknown] at htokens
  cases htokens
  have hwide := hlimits ⟨1, 1⟩
  have hnarrow := hlimits ⟨1, 0⟩
  rw [if_pos (by decide)] at hwide
  rw [if_neg (by decide)] at hnarrow
  exact ⟨hparse, hwide, hnarrow⟩

end Document

end Questionnaire
