import Questionnaire.Token.Mode
import Questionnaire.Token.Lexeme
import Questionnaire.Token.Vocabulary
import Questionnaire.Number.Numeral
import Questionnaire.Diagnostic

/-! One token at the front of a text, by mode. Blanks and remarks are already behind: the text starts with the
lexeme, or with the character that starts none. The main statements say that the scan takes the front of the
text and nothing else, and that only the end of input takes nothing. -/

namespace Questionnaire

/-- The characters taken and those left, the mode that follows, and the token they spell or the fault. -/
structure Scan where
  taken : List Char
  rest : List Char
  mode : Mode
  outcome : Except Fault (TokenKind × String)

namespace Scan

/-- A token that is spelled by its lexeme. -/
def lexeme (mode : Mode) (kind : TokenKind) (split : List Char × List Char) : Scan :=
  ⟨split.1, split.2, mode, .ok (kind, String.ofList split.1)⟩

def endOfInput (mode : Mode) : Scan := ⟨[], [], mode, .ok (.endOfInput, "")⟩

def opening (mode : Mode) (opener : Opener) (text : List Char) : Scan :=
  lexeme (opener.leadsTo mode) opener.kind (opener.spelling, text.drop opener.spelling.length)

/-- The closing mark of the mode, where the text begins with it. -/
def closing? (mode : Mode) (text : List Char) : Option Scan :=
  match mode.closer? with
  | some closer =>
    if closer.spelling.isPrefixOf text then
      some (lexeme closer.leadsTo closer.kind (closer.spelling, text.drop closer.spelling.length))
    else none
  | none => none

def unexpected (mode : Mode) (c : Char) (rest : List Char) : Scan :=
  ⟨[], c :: rest, mode, .error (.unexpectedCharacter c)⟩

def string (mode : Mode) (quote : Char) (text : List Char) : Scan :=
  let (body, after) := Lexeme.stringBody quote text
  match after with
  | [] => ⟨quote :: body, [], mode, .error .unterminatedString⟩
  | c :: rest =>
    if c = quote then ⟨quote :: body ++ [c], rest, mode, .ok (.string, String.ofList (Lexeme.decoded body))⟩
    else ⟨quote :: body, c :: rest, mode, .error .unterminatedString⟩

/-- A literal that writes no number is a fault. -/
def number (mode : Mode) (text : List Char) : Scan :=
  let (literal, rest) := Lexeme.number text
  if (Double.read? literal).isSome then lexeme mode .number (literal, rest)
  else ⟨literal, rest, mode, .error (.invalidNumber (String.ofList literal))⟩

def word (mode : Mode) (text : List Char) : Scan :=
  let split := Lexeme.word text
  lexeme mode (Vocabulary.kindOf (String.ofList split.1)) split

/-- An attribute goes without its mark. -/
def markedName (mode : Mode) (mark : Char) (rest : List Char) : Scan :=
  match rest with
  | c :: _ =>
    if Lexeme.isWordStart c then
      let (name, rest) := Lexeme.word rest
      ⟨mark :: name, rest, mode, .ok (.attributeKeyword, String.ofList name)⟩
    else ⟨[mark], rest, mode, .error .attributeNameMissing⟩
  | [] => ⟨[mark], rest, mode, .error .attributeNameMissing⟩

/-- Free text up to the next opening mark, or to the end. -/
def textRun : List Char → List Char × List Char
  | [] => ([], [])
  | c :: rest =>
    if (Opener.at? (c :: rest)).isSome then ([], c :: rest)
    else
      let (run, rest) := textRun rest
      (c :: run, rest)

def inText (text : List Char) : Scan :=
  match Opener.at? text, text with
  | some opener, _ => opening .text opener text
  | none, [] => endOfInput .text
  | none, c :: rest =>
    let (run, rest) := textRun (c :: rest)
    ⟨run, rest, .text, .ok (.textRun, String.ofList (Text.trimEnd run))⟩

def inAttributes (mode : Mode) (text : List Char) : Scan :=
  match closing? mode text, text with
  | some scan, _ => scan
  | none, [] => endOfInput mode
  | none, c :: rest =>
    if Opener.at? (c :: rest) = some .embedded then opening mode .embedded (c :: rest)
    else if Lexeme.isQuote c then string mode c rest
    else if c = '=' then lexeme mode .punctuation ([c], rest)
    else if c = '@' then markedName mode c rest
    else if Lexeme.isWordStart c then lexeme mode .identifier (Lexeme.word (c :: rest))
    else unexpected mode c rest

def inLogic (mode : Mode) (text : List Char) : Scan :=
  match closing? mode text, text with
  | some scan, _ => scan
  | none, [] => endOfInput mode
  | none, c :: rest =>
    if Opener.at? (c :: rest) = some .embedded then
      ⟨[], c :: rest, mode, .error (if mode = .logic then .embeddingInLogic else .nestedEmbedding)⟩
    else if Lexeme.isQuote c then string mode c rest
    else if Lexeme.startsNumber (c :: rest) then number mode (c :: rest)
    else if Lexeme.isPunctuation c then lexeme mode .punctuation ([c], rest)
    else if Lexeme.isOperatorStart c then lexeme mode .operator (Lexeme.operator (c :: rest))
    else if Lexeme.isWordStart c then word mode (c :: rest)
    else unexpected mode c rest

end Scan

def Mode.scan (mode : Mode) (text : List Char) : Scan :=
  match mode with
  | .text => Scan.inText text
  | .questionAttributes => Scan.inAttributes mode text
  | .optionAttributes => Scan.inAttributes mode text
  | .embedded _ => Scan.inLogic mode text
  | .logic => Scan.inLogic mode text

namespace Scan

/-- A scan of a text takes its front, and something of it unless it answers the end of input or a fault. -/
structure Fits (scan : Scan) (text : List Char) : Prop where
  append : scan.taken ++ scan.rest = text
  advances : ∀ kind word, scan.outcome = .ok (kind, word) → kind ≠ .endOfInput → scan.taken ≠ []

theorem textRun_append (text : List Char) : (textRun text).1 ++ (textRun text).2 = text := by
  fun_induction textRun text <;> simp_all

theorem fits_endOfInput (mode : Mode) : (endOfInput mode).Fits [] :=
  ⟨rfl, fun kind word h => by simp [endOfInput] at h; simp [h]⟩

theorem fits_lexeme {mode : Mode} {kind : TokenKind} {split : List Char × List Char} {text : List Char}
    (append : split.1 ++ split.2 = text) (ne : split.1 ≠ []) : (lexeme mode kind split).Fits text :=
  ⟨append, fun _ _ _ _ => ne⟩

theorem fits_opening {mode : Mode} {opener : Opener} {text : List Char} (h : Opener.at? text = some opener) :
    (opening mode opener text).Fits text :=
  fits_lexeme (Opener.eq_append_of_at? h).symm (by cases opener <;> simp [Opener.spelling])

theorem fits_closing {mode : Mode} {text : List Char} {scan : Scan} (h : closing? mode text = some scan) :
    scan.Fits text := by
  unfold closing? at h
  split at h
  next closer hcloser =>
    split at h
    next hfront =>
      cases h
      refine fits_lexeme ?_ ?_
      · obtain ⟨rest, rfl⟩ := List.isPrefixOf_iff_prefix.mp hfront
        simp
      · cases mode <;> simp [Mode.closer?] at hcloser <;> subst hcloser <;> simp
    next => cases h
  next => cases h

theorem fits_unexpected (mode : Mode) (c : Char) (rest : List Char) : (unexpected mode c rest).Fits (c :: rest) :=
  ⟨rfl, fun _ _ h => by simp [unexpected] at h⟩

theorem fits_string (mode : Mode) (quote : Char) (text : List Char) :
    (string mode quote text).Fits (quote :: text) := by
  have append := Lexeme.stringBody_append quote text
  unfold string
  generalize Lexeme.stringBody quote text = split at append
  obtain ⟨body, after⟩ := split
  dsimp only at append ⊢
  split
  · exact ⟨by simpa using append, by simp⟩
  · split
    · exact ⟨by simpa using append, by simp⟩
    · exact ⟨by simpa using append, by simp⟩

theorem fits_number {mode : Mode} {text : List Char} (h : Lexeme.startsNumber text = true) :
    (number mode text).Fits text := by
  have append := Lexeme.number_append text
  have ne := Lexeme.number_ne_nil h
  unfold number
  generalize Lexeme.number text = split at append ne
  obtain ⟨literal, rest⟩ := split
  dsimp only at append ne ⊢
  split
  · exact fits_lexeme append ne
  · exact ⟨append, by simp⟩

theorem fits_markedName (mode : Mode) (mark : Char) (rest : List Char) :
    (markedName mode mark rest).Fits (mark :: rest) := by
  unfold markedName
  split
  · split
    · exact ⟨by simpa using Lexeme.word_append _, by simp⟩
    · exact ⟨rfl, by simp⟩
  · exact ⟨rfl, by simp⟩

theorem fits_inText (text : List Char) : (inText text).Fits text := by
  unfold inText
  split
  next h => exact fits_opening h
  · exact fits_endOfInput _
  next c rest h => exact ⟨textRun_append (c :: rest), fun _ _ _ _ => by simp [textRun, h]⟩

theorem fits_inAttributes (mode : Mode) (text : List Char) : (inAttributes mode text).Fits text := by
  unfold inAttributes
  split
  next h => exact fits_closing h
  · exact fits_endOfInput _
  · split
    next h => exact fits_opening h
    split
    · exact fits_string _ _ _
    split
    · exact fits_lexeme rfl (by simp)
    split
    · exact fits_markedName _ _ _
    split
    next h => exact fits_lexeme (Lexeme.word_append _) (Lexeme.word_ne_nil h)
    · exact fits_unexpected _ _ _

theorem fits_inLogic (mode : Mode) (text : List Char) : (inLogic mode text).Fits text := by
  unfold inLogic
  split
  next h => exact fits_closing h
  · exact fits_endOfInput _
  · split
    · exact ⟨rfl, by simp⟩
    split
    · exact fits_string _ _ _
    split
    next h => exact fits_number h
    split
    · exact fits_lexeme rfl (by simp)
    split
    · exact fits_lexeme (Lexeme.operator_append _) (Lexeme.operator_ne_nil _ _)
    split
    next h => exact fits_lexeme (Lexeme.word_append _) (Lexeme.word_ne_nil h)
    · exact fits_unexpected _ _ _

theorem fits_scan (mode : Mode) (text : List Char) : (mode.scan text).Fits text := by
  cases mode
  · exact fits_inText text
  · exact fits_inAttributes _ text
  · exact fits_inAttributes _ text
  · exact fits_inLogic _ text
  · exact fits_inLogic _ text

end Scan

end Questionnaire
