import Questionnaire.Analysis
import Questionnaire.Proofs.Grammar.Naturality
import Questionnaire.Proofs.Legality.Relocation
import Questionnaire.Proofs.Symbols.Relocation
import Questionnaire.Proofs.Token.Rendering

/-! Layout never changes meaning. All that comes of a source is made from its tokens alike wherever they stand, first
the document, then the verdict on it. Two sources with the same tokens are thus compared with one stream that has each
token at a place of its own, which tells the token to blame from all others. -/

namespace Questionnaire

variable {limits : Limits} {move : Position → Position}

theorem Document.analyze_relocate (document : Document) :
    (document.relocate move).analyze = relocateOutcome move (Table.relocate move) document.analyze := by
  rw [analyze, check_relocate, Table.ofDocument_relocate]
  exact relocateOutcome_bind fun _ => rfl

/-- What comes of a stream of tokens. -/
def compileItems (limits : Limits) (items : List Item) : Except Diagnostic Document := do
  let document ← (Parser.ofItems limits items).parse.1
  let _ ← document.analyze
  return document

theorem compile_eq (limits : Limits) (source : String) : compile limits source = compileItems limits (itemsOf source) :=
  rfl

theorem compileItems_relocate {before : List Token} {last : Token} (hlast : last.kind = .endOfInput) :
    compileItems limits (((before ++ [last]).map (Token.relocate move)).map .ok) =
      relocateOutcome move (Document.relocate move) (compileItems limits ((before ++ [last]).map .ok)) := by
  rw [compileItems, Parser.parse_relocate move hlast]
  refine relocateOutcome_bind fun document => ?_
  rw [Document.analyze_relocate]
  exact relocateOutcome_bind fun _ => rfl

/-- Tokens with the given contents, each at a place that tells its index. -/
def numbered (contents : List (TokenKind × String)) : List Token :=
  contents.mapIdx fun index content => ⟨content.1, content.2, ⟨index, 0⟩⟩

/-- Where the token stands whose index a place tells. -/
def placeIn (tokens : List Token) (position : Position) : Position :=
  ((tokens[position.line]?).map Token.position).getD position

theorem numbered_relocate (tokens : List Token) :
    (numbered (tokens.map Token.content)).map (Token.relocate (placeIn tokens)) = tokens := by
  refine List.ext_getElem? fun index => ?_
  rw [List.getElem?_map, numbered, List.getElem?_mapIdx, List.getElem?_map]
  cases htoken : tokens[index]? with
  | none => rfl
  | some token => simp [Token.relocate, Token.content, placeIn, htoken]

theorem exists_last_numbered {source : String} {tokens : List Token} (h : tokenize source = .ok tokens) :
    ∃ before last, numbered (tokens.map Token.content) = before ++ [last] ∧ last.kind = .endOfInput := by
  obtain ⟨before, last, rfl, hlast, -⟩ := exists_last_of_tokenize h
  rw [List.map_append, List.map_singleton, numbered, List.mapIdx_concat]
  exact ⟨_, _, rfl, hlast⟩

/-- Where the tokens are numbered, the place of a fault tells the token to blame. -/
theorem position_of_error {contents : List (TokenKind × String)} {before : List Token} {last : Token}
    {diagnostic : Diagnostic} (hcontents : numbered contents = before ++ [last]) (hlast : last.kind = .endOfInput)
    (h : compileItems limits ((numbered contents).map .ok) = .error diagnostic) :
    ∃ index < contents.length, diagnostic.position = ⟨index, 0⟩ := by
  by_contra hnone
  -- to move that place alone leaves all tokens where they are
  let aside (position : Position) : Position :=
    if position = diagnostic.position then ⟨position.line, position.column + 1⟩ else position
  have hsame : (numbered contents).map (Token.relocate aside) = numbered contents := by
    refine List.ext_getElem? fun index => ?_
    rw [List.getElem?_map, numbered, List.getElem?_mapIdx]
    cases hcontent : contents[index]? with
    | none => rfl
    | some content =>
        have hindex := (List.getElem?_eq_some_iff.mp hcontent).1
        have hne : (⟨index, 0⟩ : Position) ≠ diagnostic.position := fun heq => hnone ⟨index, hindex, heq.symm⟩
        simp [Token.relocate, aside, hne]
  have hmoved : compileItems limits (((before ++ [last]).map (Token.relocate aside)).map .ok) = _ :=
    compileItems_relocate hlast
  rw [← hcontents, hsame, h] at hmoved
  have hposition : diagnostic.position = aside diagnostic.position :=
    congrArg Diagnostic.position (Except.error.inj hmoved)
  have hcolumn := congrArg Position.column hposition
  simp [aside] at hcolumn

/-- Layout never changes meaning. Two sources with the same tokens, wherever these stand, are both survey documents,
the same up to the places of their tokens, or neither is one, for the same reason and with the same token to blame. -/
theorem compile_of_contents {source₁ source₂ : String} {tokens₁ tokens₂ : List Token}
    (h₁ : tokenize source₁ = .ok tokens₁) (h₂ : tokenize source₂ = .ok tokens₂)
    (hcontents : tokens₁.map Token.content = tokens₂.map Token.content) (limits : Limits) :
    (∃ document₁ document₂, compile limits source₁ = .ok document₁ ∧ compile limits source₂ = .ok document₂ ∧
        document₁.unplaced = document₂.unplaced) ∨
      ∃ diagnostic₁ diagnostic₂, compile limits source₁ = .error diagnostic₁ ∧
        compile limits source₂ = .error diagnostic₂ ∧ diagnostic₁.kind = diagnostic₂.kind ∧
        diagnostic₁.message = diagnostic₂.message ∧
        ∃ (index : Nat) (token₁ token₂ : Token), tokens₁[index]? = some token₁ ∧ tokens₂[index]? = some token₂ ∧
          diagnostic₁.position = token₁.position ∧ diagnostic₂.position = token₂.position := by
  obtain ⟨before, last, hnumbered, hlast⟩ := exists_last_numbered h₁
  -- both are what the numbered tokens compile to, with the places put in
  have hcompile {source : String} {tokens : List Token} (h : tokenize source = .ok tokens)
      (hsplit : numbered (tokens.map Token.content) = before ++ [last]) :
      compile limits source = relocateOutcome (placeIn tokens) (Document.relocate (placeIn tokens))
        (compileItems limits ((before ++ [last]).map .ok)) := by
    rw [compile_eq, tokenize_eq_ok_iff.mp h, ← compileItems_relocate hlast, ← hsplit, numbered_relocate]
  have hcompile₁ := hcompile h₁ hnumbered
  have hcompile₂ := hcompile h₂ (hcontents ▸ hnumbered)
  cases houtcome : compileItems limits ((before ++ [last]).map .ok) with
  | ok document =>
      rw [houtcome] at hcompile₁ hcompile₂
      refine .inl ⟨_, _, hcompile₁, hcompile₂, ?_⟩
      rw [Document.unplaced_relocate, Document.unplaced_relocate]
  | error diagnostic =>
      rw [houtcome] at hcompile₁ hcompile₂
      refine .inr ⟨_, _, hcompile₁, hcompile₂, rfl, rfl, ?_⟩
      rw [← hnumbered] at houtcome
      obtain ⟨index, hindex, hposition⟩ := position_of_error hnumbered hlast houtcome
      have hlength := congrArg List.length hcontents
      rw [List.length_map] at hindex
      rw [List.length_map, List.length_map] at hlength
      have hindex₂ : index < tokens₂.length := hlength ▸ hindex
      refine ⟨index, tokens₁[index], tokens₂[index], List.getElem?_eq_getElem hindex,
        List.getElem?_eq_getElem hindex₂, ?_, ?_⟩
      · simp [Diagnostic.relocate, hposition, placeIn, hindex]
      · simp [Diagnostic.relocate, hposition, placeIn, hindex₂]

theorem compile_of_contents_assignment :
    let tokens₁ : List Token := [⟨.logicOpen, "<%", ⟨1, 1⟩⟩, ⟨.identifier, "a", ⟨1, 4⟩⟩, ⟨.operator, "=", ⟨1, 6⟩⟩,
      ⟨.string, "b", ⟨1, 8⟩⟩, ⟨.logicClose, "%>", ⟨1, 12⟩⟩, ⟨.endOfInput, "", ⟨1, 14⟩⟩]
    let tokens₂ : List Token := [⟨.logicOpen, "<%", ⟨1, 1⟩⟩, ⟨.identifier, "a", ⟨1, 3⟩⟩, ⟨.operator, "=", ⟨2, 1⟩⟩,
      ⟨.string, "b", ⟨2, 2⟩⟩, ⟨.logicClose, "%>", ⟨2, 5⟩⟩, ⟨.endOfInput, "", ⟨2, 7⟩⟩]
    tokenize "<% a = 'b' %>" = .ok tokens₁ ∧ tokenize "<%a// c\n=\"b\"%>" = .ok tokens₂ ∧
      tokens₁.map Token.content = tokens₂.map Token.content ∧
      ∃ document₁ document₂, compile ⟨6, 6⟩ "<% a = 'b' %>" = .ok document₁ ∧
        compile ⟨6, 6⟩ "<%a// c\n=\"b\"%>" = .ok document₂ ∧ document₁.unplaced = document₂.unplaced := by
  intro tokens₁ tokens₂
  have h₁ : tokenize "<% a = 'b' %>" = .ok tokens₁ := by cbv
  have h₂ : tokenize "<%a// c\n=\"b\"%>" = .ok tokens₂ := by cbv
  have hcontents : tokens₁.map Token.content = tokens₂.map Token.content := rfl
  refine ⟨h₁, h₂, hcontents, ?_⟩
  rcases compile_of_contents h₁ h₂ hcontents ⟨6, 6⟩ with h | ⟨_, _, herror, -⟩
  · exact h
  · have hok : (compile ⟨6, 6⟩ "<% a = 'b' %>").isOk = true := by cbv
    rw [herror] at hok
    cases hok

end Questionnaire
