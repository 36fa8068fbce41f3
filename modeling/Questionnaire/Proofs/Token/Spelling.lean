import Mathlib.Data.List.TakeWhile
import Mathlib.Tactic.SplitIfs
import Questionnaire.Token.Lexer

/-! How lexemes spell tokens. Most tokens carry their lexeme as it is; an attribute stands after its mark, and
a string literal denotes its text through escapes. Free text is followed by the blanks that were trimmed off. The
main statements say what every scan takes for the token it answers, and what stands at the front of the text when
it refuses. -/

namespace Questionnaire

/-- The body of a string literal between two quotes of the same kind, and the text it denotes. -/
inductive Literal (quote : Char) : List Char → List Char → Prop where
  | nil : Literal quote [] []
  | plain {c : Char} {body text : List Char} (hquote : c ≠ quote) (hescape : c ≠ '\\') (hline : c ≠ '\n') :
      Literal quote body text → Literal quote (c :: body) (c :: text)
  | escape {c : Char} {body text : List Char} :
      Literal quote body text → Literal quote ('\\' :: c :: body) (Lexeme.escaped c :: text)

/-- The lexeme spells a token of the kind and the text. -/
def TokenKind.Spelled (kind : TokenKind) (text : String) (lexeme : List Char) : Prop :=
  match kind with
  | .attributeKeyword => lexeme = '@' :: text.toList
  | .string => ∃ (quote : Char) (body : List Char),
      Lexeme.isQuote quote = true ∧ Literal quote body text.toList ∧ lexeme = quote :: body ++ [quote]
  | _ => lexeme = text.toList

/-- How the lexeme begins that the fault rejects. -/
def Fault.Rejects (text : List Char) : Fault → Prop
  | .unexpectedCharacter c => text.head? = some c
  | .attributeNameMissing => text.head? = some '@'
  | .nestedEmbedding => ['$', '{'] <+: text
  | .embeddingInLogic => ['$', '{'] <+: text
  | .unterminatedString => ∃ quote, Lexeme.isQuote quote = true ∧ text.head? = some quote
  | .invalidNumber literal => literal ≠ "" ∧ literal.toList <+: text
  | _ => False

theorem Fault.Rejects.ne_nil {fault : Fault} {text : List Char} (h : fault.Rejects text) : text ≠ [] := by
  rintro rfl
  cases fault with
  | unexpectedCharacter c => exact Option.some_ne_none c h.symm
  | attributeNameMissing => exact Option.some_ne_none '@' h.symm
  | nestedEmbedding => exact List.cons_ne_nil _ _ (List.prefix_nil.mp h)
  | embeddingInLogic => exact List.cons_ne_nil _ _ (List.prefix_nil.mp h)
  | unterminatedString =>
      obtain ⟨quote, _, hhead⟩ := h
      exact Option.some_ne_none quote hhead.symm
  | invalidNumber literal =>
      obtain ⟨hne, hprefix⟩ := h
      exact hne (String.toList_eq_nil_iff.mp (List.prefix_nil.mp hprefix))
  | _ => exact h

namespace Lexeme

theorem decoded_cons_of_ne {c : Char} (h : c ≠ '\\') (body : List Char) : decoded (c :: body) = c :: decoded body := by
  cases body with
  | nil => rfl
  | cons d body => rw [decoded, if_neg h]

/-- The literal that a quote opens is read up to the quote that closes it. -/
theorem literal_stringBody (quote : Char) (text : List Char) {rest : List Char}
    (h : (stringBody quote text).2 = quote :: rest) :
    Literal quote (stringBody quote text).1 (decoded (stringBody quote text).1) := by
  fun_induction stringBody quote text generalizing rest with
  | case1 => exact .nil
  | case2 => exact .nil
  | case3 => cases h
  | case4 => exact .nil
  | case5 d text body after hsplit hstop ih =>
      rw [hsplit] at ih
      exact .escape (ih h)
  | case6 c d text hstop hescape body after hsplit ih =>
      rw [hsplit] at ih
      obtain ⟨hline, hquote⟩ := not_or.mp hstop
      rw [decoded_cons_of_ne hescape]
      exact .plain hquote hescape hline (ih h)

end Lexeme

namespace Text

theorem trimEnd_append (text : List Char) : trimEnd text ++ (text.reverse.takeWhile isBlank).reverse = text := by
  rw [trimEnd, ← List.reverse_append, List.takeWhile_append_dropWhile, List.reverse_reverse]

theorem trimEnd_ne_nil {c : Char} {text : List Char} (h : isBlank c = false) : trimEnd (c :: text) ≠ [] := by
  intro hnil
  rw [trimEnd, List.reverse_eq_nil_iff, List.dropWhile_eq_nil_iff] at hnil
  have := hnil c (by simp)
  rw [h] at this
  cases this

end Text

/-- Tokens of the kind carry their lexeme as it is. -/
def TokenKind.isVerbatim : TokenKind → Bool
  | .attributeKeyword => false
  | .string => false
  | .endOfInput => false
  | _ => true

theorem TokenKind.spelled_ofList {kind : TokenKind} (h : kind.isVerbatim = true) (lexeme : List Char) :
    kind.Spelled (String.ofList lexeme) lexeme := by
  cases kind <;> simp_all [isVerbatim, Spelled]

theorem Vocabulary.isVerbatim_kindOf (word : String) : (kindOf word).isVerbatim = true := by
  unfold kindOf
  split_ifs <;> rfl

namespace Scan

/-- What a scan answers agrees with the front of the text: a token with the characters taken for it, but for the
blanks trimmed off a free text, the end of input with the end of the text, and a fault with the lexeme that
stands there. -/
structure Tells (scan : Scan) (text : List Char) : Prop where
  token : ∀ kind word, scan.outcome = .ok (kind, word) → kind ≠ .endOfInput →
    ∃ lexeme trail, scan.taken = lexeme ++ trail ∧ lexeme ≠ [] ∧ kind.Spelled word lexeme ∧
      (trail ≠ [] → scan.mode = .text) ∧ ∀ c ∈ trail, Text.isBlank c = true
  atEnd : ∀ word, scan.outcome = .ok (.endOfInput, word) → text = []
  fault : ∀ fault, scan.outcome = .error fault → fault.Rejects text

theorem tells_ok {taken rest text : List Char} {mode : Mode} {kind : TokenKind} {word : String}
    (hkind : kind ≠ .endOfInput) (hne : taken ≠ []) (hspelled : kind.Spelled word taken) :
    (Scan.mk taken rest mode (.ok (kind, word))).Tells text where
  token kind' word' h _ := by
    cases h
    exact ⟨taken, [], by simp, hne, hspelled, by simp, by simp⟩
  atEnd word' h := by
    cases h
    exact absurd rfl hkind
  fault _ h := by cases h

theorem tells_error {taken rest text : List Char} {mode : Mode} {fault : Fault} (h : fault.Rejects text) :
    (Scan.mk taken rest mode (.error fault)).Tells text where
  token _ _ h := by cases h
  atEnd _ h := by cases h
  fault fault' h' := by
    cases h'
    exact h

theorem tells_endOfInput (mode : Mode) : (endOfInput mode).Tells [] where
  token kind word h hkind := by
    cases h
    exact absurd rfl hkind
  atEnd _ _ := rfl
  fault _ h := by cases h

theorem tells_lexeme {mode : Mode} {kind : TokenKind} {split : List Char × List Char} {text : List Char}
    (hkind : kind.isVerbatim = true) (hne : split.1 ≠ []) : (lexeme mode kind split).Tells text :=
  tells_ok (by rintro rfl; cases hkind) hne (TokenKind.spelled_ofList hkind _)

theorem tells_opening (mode : Mode) (opener : Opener) (text : List Char) :
    (opening mode opener text).Tells text :=
  tells_lexeme (by cases opener <;> rfl) (by cases opener <;> simp [Opener.spelling])

theorem tells_closing {mode : Mode} {text : List Char} {scan : Scan} (h : closing? mode text = some scan) :
    scan.Tells text := by
  unfold closing? at h
  split at h
  next closer hcloser =>
    split at h
    · cases h
      cases mode <;> simp only [Mode.closer?, Option.some.injEq, reduceCtorEq] at hcloser <;> subst hcloser <;>
        exact tells_lexeme rfl (by simp)
    · cases h
  next => cases h

theorem tells_string {mode : Mode} {quote : Char} (text : List Char) (hquote : Lexeme.isQuote quote = true) :
    (string mode quote text).Tells (quote :: text) := by
  have hrejects : Fault.Rejects (quote :: text) .unterminatedString := ⟨quote, hquote, rfl⟩
  have hliteral : ∀ rest, (Lexeme.stringBody quote text).2 = quote :: rest → _ :=
    fun _ => Lexeme.literal_stringBody quote text
  unfold string
  generalize Lexeme.stringBody quote text = split at hliteral
  obtain ⟨body, after⟩ := split
  dsimp only at hliteral ⊢
  split
  next => exact tells_error hrejects
  next c rest =>
    split
    next hc =>
      subst hc
      refine tells_ok (by simp) (by simp) ⟨c, body, hquote, ?_, rfl⟩
      rw [String.toList_ofList]
      exact hliteral rest rfl
    next => exact tells_error hrejects

theorem tells_number {mode : Mode} {text : List Char} (h : Lexeme.startsNumber text = true) :
    (number mode text).Tells text := by
  have hne := Lexeme.number_ne_nil h
  have happend := Lexeme.number_append text
  unfold number
  split
  next literal rest hsplit =>
    rw [hsplit] at hne happend
    split
    · exact tells_lexeme rfl hne
    · refine tells_error ⟨?_, ?_⟩
      · intro hnil
        exact hne (by simpa using congrArg String.toList hnil)
      · rw [String.toList_ofList]
        exact ⟨rest, happend⟩

theorem tells_markedName (mode : Mode) (rest : List Char) : (markedName mode '@' rest).Tells ('@' :: rest) := by
  unfold markedName
  split
  · split
    · exact tells_ok (by simp) (by simp) (by simp [TokenKind.Spelled])
    · exact tells_error rfl
  · exact tells_error rfl

theorem tells_inText {text : List Char} (h : ∀ c ∈ text.head?, Text.isBlank c = false) :
    (inText text).Tells text := by
  unfold inText
  split
  next => exact tells_opening _ _ _
  next => exact tells_endOfInput _
  next c rest hopener =>
    have hrun : ∃ run after, textRun (c :: rest) = (c :: run, after) := by
      rw [textRun, hopener]
      exact ⟨_, _, rfl⟩
    obtain ⟨run, after, hrun⟩ := hrun
    rw [hrun]
    have hne : Text.trimEnd (c :: run) ≠ [] := Text.trimEnd_ne_nil (h c rfl)
    refine ⟨?_, by simp, by simp⟩
    rintro kind word houtcome -
    cases houtcome
    refine ⟨_, _, (Text.trimEnd_append (c :: run)).symm, hne, ?_, fun _ => rfl, ?_⟩
    · exact TokenKind.spelled_ofList rfl _
    · intro d hd
      exact List.mem_takeWhile_imp (List.mem_reverse.mp hd)

theorem tells_inAttributes (mode : Mode) (text : List Char) : (inAttributes mode text).Tells text := by
  unfold inAttributes
  split
  next h => exact tells_closing h
  next => exact tells_endOfInput _
  next c rest hcloser =>
    split_ifs with hopener hquote hequals hmark hword
    · exact tells_opening _ _ _
    · exact tells_string rest hquote
    · exact tells_lexeme rfl (by simp)
    · subst hmark
      exact tells_markedName mode rest
    · exact tells_lexeme rfl (Lexeme.word_ne_nil hword)
    · exact tells_error rfl

theorem tells_inLogic (mode : Mode) (text : List Char) : (inLogic mode text).Tells text := by
  unfold inLogic
  split
  next h => exact tells_closing h
  next => exact tells_endOfInput _
  next c rest hcloser =>
    split_ifs with hopener hlogic hquote hnumber hpunctuation hoperator hword
    · rw [Opener.eq_append_of_at? hopener]
      exact tells_error (List.prefix_append _ _)
    · rw [Opener.eq_append_of_at? hopener]
      exact tells_error (List.prefix_append _ _)
    · exact tells_string rest hquote
    · exact tells_number hnumber
    · exact tells_lexeme rfl (by simp)
    · exact tells_lexeme rfl (Lexeme.operator_ne_nil _ _)
    · exact tells_lexeme (Vocabulary.isVerbatim_kindOf _) (Lexeme.word_ne_nil hword)
    · exact tells_error rfl

/-- Free text is scanned from a character that is not blank, as it is after the blanks before it. -/
theorem tells_scan (mode : Mode) {text : List Char}
    (h : mode = .text → ∀ c ∈ text.head?, Text.isBlank c = false) : (mode.scan text).Tells text := by
  cases mode with
  | text => exact tells_inText (h rfl)
  | questionAttributes => exact tells_inAttributes _ text
  | optionAttributes => exact tells_inAttributes _ text
  | embedded => exact tells_inLogic _ text
  | logic => exact tells_inLogic _ text

end Scan

end Questionnaire
