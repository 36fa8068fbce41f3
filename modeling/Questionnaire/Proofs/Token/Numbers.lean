import Questionnaire.Proofs.Token.Rendering

/-! The numbers in a source. A literal that writes no number is a fault, so that the text of every token for a number
can be read as one. -/

namespace Questionnaire

namespace Scan

/-- A number that the scan answers can be read. -/
def Legible (scan : Scan) : Prop :=
  ∀ word, scan.outcome = .ok (.number, word) → (Double.read? word.toList).isSome = true

variable {mode : Mode}

theorem legible_error {taken rest : List Char} {fault : Fault} : (Scan.mk taken rest mode (.error fault)).Legible := by
  intro word h
  cases h

theorem legible_of_kind {taken rest : List Char} {kind : TokenKind} {word : String} (h : kind ≠ .number) :
    (Scan.mk taken rest mode (.ok (kind, word))).Legible := by
  intro word houtcome
  cases houtcome
  exact absurd rfl h

theorem legible_lexeme {kind : TokenKind} {split : List Char × List Char} (h : kind ≠ .number) :
    (lexeme mode kind split).Legible := legible_of_kind h

theorem legible_opening (opener : Opener) (text : List Char) : (opening mode opener text).Legible :=
  legible_lexeme (by cases opener <;> decide)

theorem legible_closing {text : List Char} {scan : Scan} (h : closing? mode text = some scan) : scan.Legible := by
  unfold closing? at h
  split at h
  next closer hcloser =>
    split_ifs at h
    cases h
    cases mode with
    | text => cases hcloser
    | questionAttributes => cases hcloser; exact legible_lexeme (by decide)
    | optionAttributes => cases hcloser; exact legible_lexeme (by decide)
    | embedded resume => cases hcloser; exact legible_lexeme TokenKind.noConfusion
    | logic => cases hcloser; exact legible_lexeme (by decide)
  next => cases h

theorem legible_string (quote : Char) (text : List Char) : (string mode quote text).Legible := by
  unfold string
  generalize Lexeme.stringBody quote text = split
  obtain ⟨body, after⟩ := split
  dsimp only
  split
  · exact legible_error
  · split
    · exact legible_of_kind (by decide)
    · exact legible_error

theorem legible_number (text : List Char) : (number mode text).Legible := by
  unfold number
  generalize Lexeme.number text = split
  obtain ⟨literal, rest⟩ := split
  dsimp only
  split
  next hread =>
    intro word houtcome
    cases houtcome
    rwa [String.toList_ofList]
  next => exact legible_error

theorem kindOf_ne_number (word : String) : Vocabulary.kindOf word ≠ .number := by
  unfold Vocabulary.kindOf
  split_ifs <;> decide

theorem legible_markedName (mark : Char) (rest : List Char) : (markedName mode mark rest).Legible := by
  unfold markedName
  split
  · split
    · exact legible_of_kind (by decide)
    · exact legible_error
  · exact legible_error

theorem legible_inText (text : List Char) : (inText text).Legible := by
  unfold inText
  split
  · exact legible_opening _ _
  · exact legible_of_kind (by decide)
  · exact legible_of_kind (by decide)

theorem legible_inAttributes (text : List Char) : (inAttributes mode text).Legible := by
  unfold inAttributes
  split
  next hcloser => exact legible_closing hcloser
  next => exact legible_of_kind (by decide)
  next =>
    split_ifs
    · exact legible_opening _ _
    · exact legible_string _ _
    · exact legible_lexeme (by decide)
    · exact legible_markedName _ _
    · exact legible_lexeme (by decide)
    · exact legible_error

theorem legible_inLogic (text : List Char) : (inLogic mode text).Legible := by
  unfold inLogic
  split
  next hcloser => exact legible_closing hcloser
  next => exact legible_of_kind (by decide)
  next =>
    split_ifs
    · exact legible_error
    · exact legible_error
    · exact legible_string _ _
    · exact legible_number _
    · exact legible_lexeme (by decide)
    · exact legible_lexeme (by decide)
    · exact legible_lexeme (kindOf_ne_number _)
    · exact legible_error

theorem legible_scan (mode : Mode) (text : List Char) : (mode.scan text).Legible := by
  cases mode with
  | text => exact legible_inText text
  | questionAttributes => exact legible_inAttributes text
  | optionAttributes => exact legible_inAttributes text
  | embedded => exact legible_inLogic text
  | logic => exact legible_inLogic text

end Scan

/-- Every item of a stream is what a lexer answers next. -/
theorem Lexer.exists_next_of_mem_items {lexer : Lexer} {item : Item} (h : item ∈ lexer.items) :
    ∃ other : Lexer, other.next.1 = item := by
  unfold items at h
  fun_induction run lexer with
  | case1 => cases h
  | case2 lexer first after hpull ih =>
      rw [List.map_cons, List.mem_cons] at h
      rcases h with rfl | h
      · unfold pull at hpull
        split at hpull
        · cases hpull
        · obtain ⟨hfirst, -⟩ := Prod.mk.inj hpull
          exact ⟨lexer, Option.some.inj hfirst⟩
      · exact ih h

theorem isSome_read?_of_tokenize {source : String} {tokens : List Token} {token : Token}
    (h : tokenize source = .ok tokens) (htoken : token ∈ tokens) (hkind : token.kind = .number) :
    (Double.read? token.text.toList).isSome = true := by
  have hitem : .ok token ∈ itemsOf source := by
    rw [tokenize_eq_ok_iff.mp h]
    exact List.mem_map_of_mem htoken
  obtain ⟨lexer, hnext⟩ := Lexer.exists_next_of_mem_items hitem
  have houtcome := Scan.item_eq_ok hnext
  rw [hkind] at houtcome
  exact Scan.legible_scan _ _ _ houtcome

end Questionnaire
