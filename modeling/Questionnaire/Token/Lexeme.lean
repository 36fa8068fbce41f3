import Questionnaire.Text.Blank

/-! The shapes of lexemes. Each function splits a text into the lexeme at its front and the rest, so that the
two together are the text again. -/

namespace Questionnaire.Lexeme

def isWordStart (c : Char) : Bool := c.isAlpha || c == '_' || c == '$'

def isWordPart (c : Char) : Bool := isWordStart c || c.isDigit

def isQuote (c : Char) : Bool := c == '"' || c == '\''

def isPunctuation (c : Char) : Bool := ['{', '}', '(', ')', ',', '|', ':', ';', '.'].contains c

def isOperatorStart (c : Char) : Bool := ['+', '-', '*', '/', '%', '=', '<', '>', '!'].contains c

/-- Whether the text begins with a digit, or with a point and a digit. -/
def startsNumber : List Char → Bool
  | '.' :: c :: _ => c.isDigit
  | c :: _ => c.isDigit
  | [] => false

/-- Whether the text begins with a remark, which goes on to the end of the line. -/
def startsRemark : List Char → Bool
  | '/' :: '/' :: _ => true
  | _ => false

def word (text : List Char) : List Char × List Char := (text.takeWhile isWordPart, text.dropWhile isWordPart)

/-- Digits with at most one point. -/
def number (text : List Char) : List Char × List Char :=
  let whole := text.takeWhile Char.isDigit
  match text.dropWhile Char.isDigit with
  | '.' :: rest => (whole ++ '.' :: rest.takeWhile Char.isDigit, rest.dropWhile Char.isDigit)
  | rest => (whole, rest)

/-- The longest operator: an equals sign joins an equals sign, a negation or a comparison before it. -/
def operator : List Char → List Char × List Char
  | [] => ([], [])
  | [c] => ([c], [])
  | c :: d :: rest =>
    if d = '=' ∧ (c = '=' ∨ c = '!' ∨ c = '<' ∨ c = '>') then ([c, d], rest) else ([c], d :: rest)

/-- What follows an opening quote up to the quote that closes it, the end of the line or the end of the text. A
backslash takes the character after it along, whatever that is. -/
def stringBody (quote : Char) : List Char → List Char × List Char
  | [] => ([], [])
  | [c] => if c = '\n' ∨ c = quote then ([], [c]) else ([c], [])
  | c :: d :: rest =>
    if c = '\n' ∨ c = quote then ([], c :: d :: rest)
    else if c = '\\' then
      let (body, rest) := stringBody quote rest
      (c :: d :: body, rest)
    else
      let (body, rest) := stringBody quote (d :: rest)
      (c :: body, rest)

/-- What a backslash and a character stand for. -/
def escaped (c : Char) : Char :=
  if c = 'n' then '\n' else if c = 't' then '\t' else if c = 'r' then '\r' else c

/-- What the body of a string denotes. -/
def decoded : List Char → List Char
  | [] => []
  | [c] => [c]
  | c :: d :: rest => if c = '\\' then escaped d :: decoded rest else c :: decoded (d :: rest)

theorem word_append (text : List Char) : (word text).1 ++ (word text).2 = text :=
  List.takeWhile_append_dropWhile

theorem word_ne_nil {c : Char} {rest : List Char} (h : isWordStart c = true) : (word (c :: rest)).1 ≠ [] := by
  simp [word, isWordPart, h]

theorem number_append (text : List Char) : (number text).1 ++ (number text).2 = text := by
  unfold number
  have whole := List.takeWhile_append_dropWhile (p := Char.isDigit) (l := text)
  split
  next rest h =>
    rw [h] at whole
    simp [List.takeWhile_append_dropWhile, whole]
  next => exact whole

theorem number_ne_nil {text : List Char} (h : startsNumber text = true) : (number text).1 ≠ [] := by
  unfold startsNumber at h
  split at h
  next c rest =>
    simp [number, Char.isDigit]
  next c rest _ =>
    unfold number
    split <;> simp [h]
  next => cases h

theorem operator_append (text : List Char) : (operator text).1 ++ (operator text).2 = text := by
  unfold operator
  split
  · rfl
  · rfl
  · split <;> simp

theorem operator_ne_nil (c : Char) (rest : List Char) : (operator (c :: rest)).1 ≠ [] := by
  unfold operator
  split
  next h => cases h
  next => simp
  next => split <;> simp

theorem stringBody_append (quote : Char) (text : List Char) :
    (stringBody quote text).1 ++ (stringBody quote text).2 = text := by
  fun_induction stringBody quote text <;> simp_all

end Questionnaire.Lexeme
