import Questionnaire.Token.Lexer

/-! The lexer over the bytes of a source. Its reader holds the number of the next byte where the lexer holds the text
that is left: it takes bytes one at a time, searches the bytes ahead and cuts texts out of the source between two
places. A byte that is not there, or a cut through a character, would break the program. So every such move is weighed
before it is made, and a reader that comes to one that is not allowed answers with that move and does nothing more. -/

namespace Questionnaire

/-- A search for the first of the given bytes, which answers how many bytes stand before it. -/
structure ByteSearch where
  one : UInt8 → List UInt8 → Option Nat
  three : UInt8 → UInt8 → UInt8 → List UInt8 → Option Nat

/-- What is asked of a search. -/
structure ByteSearch.Lawful (search : ByteSearch) : Prop where
  one_eq (sought : UInt8) (bytes : List UInt8) : search.one sought bytes = bytes.findIdx? (· == sought)
  three_eq (first second third : UInt8) (bytes : List UInt8) :
    search.three first second third bytes = bytes.findIdx? fun byte => byte == first || byte == second || byte == third

/-- The search that looks at one byte after the other. -/
def ByteSearch.linear : ByteSearch where
  one sought bytes := bytes.findIdx? (· == sought)
  three first second third bytes := bytes.findIdx? fun byte => byte == first || byte == second || byte == third

/-- Whether a place stands between two characters of the source, or at one of its ends. -/
def OnBoundary (source : String) (place : Nat) : Prop := String.Pos.Raw.isValid source ⟨place⟩ = true

instance (source : String) (place : Nat) : Decidable (OnBoundary source place) :=
  inferInstanceAs (Decidable (_ = true))

/-- What a reader does without being stopped by the source: it reads a byte, takes all bytes from a place on, cuts out
the text between two places, sets its cursor, and goes round a loop that has led it from one place to another. -/
inductive Move where
  | readByte (place : Nat)
  | takeBytes (start : Nat)
  | cutText (start stop : Nat)
  | setCursor (place : Nat)
  | goRound (before after : Nat)
deriving DecidableEq, Repr

/-- A loop that is left where it began would never end, so a round must lead on. -/
def Move.Allowed (source : String) : Move → Prop
  | .readByte place => place < source.utf8ByteSize
  | .takeBytes start => start ≤ source.utf8ByteSize
  | .cutText start stop =>
    start ≤ stop ∧ stop ≤ source.utf8ByteSize ∧ OnBoundary source start ∧ OnBoundary source stop
  | .setCursor place => place ≤ source.utf8ByteSize
  | .goRound before after => before < after ∧ after ≤ source.utf8ByteSize

instance (source : String) : (move : Move) → Decidable (move.Allowed source)
  | .readByte _ => inferInstanceAs (Decidable (_ < _))
  | .takeBytes _ => inferInstanceAs (Decidable (_ ≤ _))
  | .cutText _ _ => inferInstanceAs (Decidable (_ ∧ _ ∧ _ ∧ _))
  | .setCursor _ => inferInstanceAs (Decidable (_ ≤ _))
  | .goRound _ _ => inferInstanceAs (Decidable (_ ∧ _))

/-- The number of the next byte, the position counted so far and the mode. -/
structure ByteReader where
  cursor : Nat
  position : Position
  mode : Mode
deriving DecidableEq, Inhabited, Repr

/-- A byte that does not continue a character is one column wide, and a line feed ends its line. -/
def Position.stepByte (position : Position) (byte : UInt8) : Position :=
  if byte = 0x0A then ⟨position.line + 1, 1⟩
  else if byte &&& 0xC0 ≠ 0x80 then ⟨position.line, position.column + 1⟩
  else position

namespace ByteReader

/-- An action of a reader: an answer, unless a move is not allowed. -/
abbrev Action (α : Type) := StateT ByteReader (Except Move) α

def ofSource : ByteReader := ⟨0, .origin, .text⟩

variable (source : String)

/-- Makes sure of a move. -/
def weigh (move : Move) : Action Unit := if move.Allowed source then pure () else throw move

def bytes : List UInt8 := source.toUTF8.data.toList

/-- The byte at a place, which the source must hold. -/
def byteAt (place : Nat) : Action UInt8 := do
  weigh source (.readByte place)
  return (bytes source).getD place 0

def bytesFrom (start : Nat) : Action (List UInt8) := do
  weigh source (.takeBytes start)
  return (bytes source).drop start

def textBetween (start stop : Nat) : Action String := do
  weigh source (.cutText start stop)
  return String.Pos.Raw.extract source ⟨start⟩ ⟨stop⟩

/-- The text between two places, none if they cannot be cut at. -/
def textBetween? (start stop : Nat) : Option String :=
  if (Move.cutText start stop).Allowed source then some (String.Pos.Raw.extract source ⟨start⟩ ⟨stop⟩) else none

def moveTo (place : Nat) : Action Unit := do
  weigh source (.setCursor place)
  modify fun reader => { reader with cursor := place }

def atEnd : Action Bool := do
  return decide (source.utf8ByteSize ≤ (← get).cursor)

/-- The byte that stands the given number of bytes ahead, read as a character; zero past the end. -/
def peek (ahead : Nat) : Action Char := do
  return Char.ofUInt8 ((bytes source).getD ((← get).cursor + ahead) 0)

/-- The character at the cursor, none at the end of the source or within a character. -/
def character? : Action (Option Char) := do
  return String.Pos.Raw.get? source ⟨(← get).cursor⟩

def startsWith (spelling : List Char) : Action Bool := do
  return (spelling.map Char.toUInt8).isPrefixOf (← bytesFrom source (← get).cursor)

/-- Takes one byte. -/
def advance : Action UInt8 := do
  let place := (← get).cursor
  let byte ← byteAt source place
  moveTo source (place + 1)
  modify fun reader => { reader with position := reader.position.stepByte byte }
  return byte

def bump : Nat → Action Unit
  | 0 => return
  | count + 1 => do
    let _ ← advance source
    bump count

/-- Takes bytes up to a place further on. -/
def advanceTo (stop : Nat) : Action Unit := do
  bump source (stop - (← get).cursor)

def advanceCharacter : Action (Option Char) := do
  match ← character? source with
  | some c =>
    bump source c.utf8Size
    return some c
  | none => return none

/-- A loop: each round answers the state of the next one, or the outcome. -/
def rounds {σ α : Type} (round : σ → Action (σ ⊕ α)) (state : σ) (reader : ByteReader) :
    Except Move (α × ByteReader) :=
  match round state reader with
  | .error move => .error move
  | .ok (.inr outcome, after) => .ok (outcome, after)
  | .ok (.inl state, after) =>
    if _onward : (Move.goRound reader.cursor after.cursor).Allowed source then rounds round state after
    else .error (.goRound reader.cursor after.cursor)
termination_by source.utf8ByteSize - reader.cursor
decreasing_by
  obtain ⟨hlt, hle⟩ := _onward
  omega

/-- Takes one byte that satisfies a test. -/
def passRound (test : Char → Bool) : Action (Unit ⊕ Unit) := do
  if test (← peek source 0) then
    let _ ← advance source
    return .inl ()
  else return .inr ()

def passWhile (test : Char → Bool) : Action Unit := rounds source (fun _ => passRound source test) ()

/-- Takes one character that is blank in free text. -/
def blankRound : Action (Unit ⊕ Unit) := do
  match ← character? source with
  | some c =>
    if Text.isBlank c then
      bump source c.utf8Size
      return .inl ()
    else return .inr ()
  | none => return .inr ()

def passBlanks : Action Unit := rounds source (fun _ => blankRound source) ()

def emit (kind : TokenKind) (text : String) (start : Position) : Action Item := return .ok ⟨kind, text, start⟩

def refuse (fault : Fault) (start : Position) : Action Item := return .error ⟨fault, start⟩

def unexpected (start : Position) : Action Item := do
  refuse (.unexpectedCharacter ((← character? source).getD '?')) start

def enter (mode : Mode) : Action Unit := modify fun reader => { reader with mode }

def opening (opener : Opener) (start : Position) : Action Item := do
  bump source opener.spelling.length
  enter (opener.leadsTo (← get).mode)
  emit opener.kind (String.ofList opener.spelling) start

def closing (closer : Closer) (start : Position) : Action Item := do
  bump source closer.spelling.length
  enter closer.leadsTo
  emit closer.kind (String.ofList closer.spelling) start

/-- Whether a byte that a mark can begin with begins one, by the byte behind it. -/
def confirms (byte next : UInt8) : Bool :=
  match Char.ofUInt8 byte with
  | '[' => true
  | '<' => Char.ofUInt8 next == '<' || Char.ofUInt8 next == '%'
  | _ => Char.ofUInt8 next == '\x7b'

/-- The first place from the given one on where a mark begins, or the end of the source. -/
def markFrom (search : ByteSearch) (place : Nat) : Action Nat := do
  match search.three '<'.toUInt8 '['.toUInt8 '$'.toUInt8 (← bytesFrom source place) with
  | none => return source.utf8ByteSize
  | some ahead =>
    let candidate := place + ahead
    if confirms (← byteAt source candidate) ((bytes source).getD (candidate + 1) 0) then return candidate
    else if _onward : (Move.goRound place (candidate + 1)).Allowed source then markFrom search (candidate + 1)
    else throw (.goRound place (candidate + 1))
termination_by source.utf8ByteSize - place
decreasing_by
  obtain ⟨hlt, hle⟩ := _onward
  omega

def textRun (search : ByteSearch) (start : Position) : Action Item := do
  let begin := (← get).cursor
  let stop ← markFrom source search begin
  advanceTo source stop
  let text ← textBetween source begin stop
  emit .textRun (String.ofList (Text.trimEnd text.toList)) start

def readWord : Action String := do
  let begin := (← get).cursor
  passWhile source Lexeme.isWordPart
  textBetween source begin (← get).cursor

/-- One character of a string: what was decoded up to it is kept apart from the source once there was an escape. The
outcome is what was decoded where the string is closed, and none where it is not. -/
def stringRound (quote : UInt8) (begin : Nat) (decoded : Option String) :
    Action (Option String ⊕ Option (Option String)) := do
  let c ← peek source 0
  if ← atEnd source then return .inr none
  else if c = '\n' then return .inr none
  else if c = Char.ofUInt8 quote then return .inr (some decoded)
  else if c = '\\' then
    let seen ← textBetween source begin (← get).cursor
    let value := decoded.getD seen
    let _ ← advance source
    match ← advanceCharacter source with
    | some c => return .inl (some (value.push (Lexeme.escaped c)))
    | none => return .inr none
  else
    match ← advanceCharacter source with
    | some c => return .inl (decoded.map (·.push c))
    | none =>
      let _ ← advance source
      return .inl decoded

def string (start : Position) : Action Item := do
  let quote ← advance source
  let begin := (← get).cursor
  match ← rounds source (stringRound source quote begin) none with
  | none => refuse .unterminatedString start
  | some decoded =>
    let stop := (← get).cursor
    let _ ← advance source
    match decoded with
    | some value => emit .string value start
    | none => emit .string (← textBetween source begin stop) start

/-- One byte of a number, of which a point is part if there was none before. -/
def numberRound (pointed : Bool) : Action (Bool ⊕ Unit) := do
  let c ← peek source 0
  if c = '.' ∧ pointed = false then
    let _ ← advance source
    return .inl true
  else if c.isDigit then
    let _ ← advance source
    return .inl pointed
  else return .inr ()

def number (start : Position) : Action Item := do
  let begin := (← get).cursor
  rounds source (numberRound source) false
  let literal ← textBetween source begin (← get).cursor
  if (Double.read? literal.toList).isSome then emit .number literal start
  else refuse (.invalidNumber literal) start

def operators : List String := ["==", "!=", "<=", ">=", "<", ">", "+", "-", "*", "/", "%", "!", "="]

/-- Grows the operator that begins at the place by one byte, while there is such an operator. -/
def operatorRound (begin : Nat) : Action (Unit ⊕ Unit) := do
  match textBetween? source begin ((← get).cursor + 1) with
  | some candidate =>
    if operators.contains candidate then
      let _ ← advance source
      return .inl ()
    else return .inr ()
  | none => return .inr ()

def operator (start : Position) : Action Item := do
  let begin := (← get).cursor
  let _ ← advance source
  rounds source (fun _ => operatorRound source begin) ()
  emit .operator (← textBetween source begin (← get).cursor) start

def word (start : Position) : Action Item := do
  let word ← readWord source
  emit (Vocabulary.kindOf word) word start

/-- An attribute goes without its mark. -/
def markedName (start : Position) : Action Item := do
  let _ ← advance source
  if Lexeme.isWordStart (← peek source 0) then
    let word ← readWord source
    emit .attributeKeyword word start
  else refuse .attributeNameMissing start

/-- Passes a remark up to the line feed behind it, or to the end of the source, which leaves the position behind. -/
def passRemark (search : ByteSearch) : Action Unit := do
  let place := (← get).cursor
  match search.one '\n'.toUInt8 (← bytesFrom source place) with
  | some ahead =>
    let passed ← textBetween source place (place + ahead)
    modify fun reader =>
      { reader with position := ⟨reader.position.line, reader.position.column + passed.toList.length⟩ }
    moveTo source (place + ahead)
  | none => moveTo source source.utf8ByteSize

def inText (search : ByteSearch) : Action Item := do
  passBlanks source
  let start := (← get).position
  if ← atEnd source then emit .endOfInput "" start
  else
    match ← [Opener.question, .option, .embedded, .logic].findM? fun opener => startsWith source opener.spelling with
    | some opener => opening source opener start
    | none => textRun source search start

/-- What is told in attributes by the byte that it begins with. -/
def attributeLexeme (start : Position) : Action Item := do
  let c ← peek source 0
  if Lexeme.isQuote c then string source start
  else if c = '=' then
    let _ ← advance source
    emit .punctuation "=" start
  else if c = '@' then markedName source start
  else if Lexeme.isWordStart c then
    let word ← readWord source
    emit .identifier word start
  else unexpected source start

def inAttributes (closer : Closer) : Action Item := do
  passWhile source Text.isSpace
  let start := (← get).position
  if ← atEnd source then emit .endOfInput "" start
  else if ← startsWith source closer.spelling then closing source closer start
  else if ← startsWith source Opener.embedded.spelling then opening source .embedded start
  else attributeLexeme source start

/-- What is told in logic by the byte that it begins with and the one behind it; a remark is passed. -/
def logicLexeme (search : ByteSearch) (start : Position) : Action (Unit ⊕ Item) := do
  let c ← peek source 0
  if Lexeme.isQuote c then .inr <$> string source start
  else if c = '.' then
    if (← peek source 1).isDigit then .inr <$> number source start
    else
      let _ ← advance source
      .inr <$> emit .punctuation "." start
  else if c = '/' ∧ (← peek source 1) = '/' then
    passRemark source search
    return .inl ()
  else if c.isDigit then .inr <$> number source start
  else if Lexeme.isPunctuation c then
    let begin := (← get).cursor
    let _ ← advance source
    let text ← textBetween source begin (← get).cursor
    .inr <$> emit .punctuation text start
  else if Lexeme.isOperatorStart c then .inr <$> operator source start
  else if Lexeme.isWordStart c then .inr <$> word source start
  else .inr <$> unexpected source start

/-- What ends an embedded expression that goes back to a point, or a logic block. -/
def logicCloser : Option Resume → Closer
  | some resume => ⟨['\x7d'], .embeddedClose, resume.mode⟩
  | none => ⟨['%', '>'], .logicClose, .text⟩

/-- Whether that stands at the cursor. -/
def closes : Option Resume → Action Bool
  | some _ => return (← peek source 0) == '\x7d'
  | none => startsWith source ['%', '>']

/-- A token, or a remark that was passed. -/
def logicRound (search : ByteSearch) (resume : Option Resume) : Action (Unit ⊕ Item) := do
  passWhile source Text.isSpace
  let start := (← get).position
  if ← atEnd source then .inr <$> emit .endOfInput "" start
  else if ← closes source resume then .inr <$> closing source (logicCloser resume) start
  else if ← startsWith source Opener.embedded.spelling then
    .inr <$> refuse (if resume.isSome then .nestedEmbedding else .embeddingInLogic) start
  else logicLexeme source search start

def inLogic (search : ByteSearch) (resume : Option Resume) : Action Item :=
  rounds source (fun _ => logicRound source search resume) ()

/-- One token from where the reader stands, whatever came before. -/
def next (search : ByteSearch) : Action Item := do
  match (← get).mode with
  | .text => inText source search
  | .questionAttributes => inAttributes source ⟨['>', '>'], .questionClose, .text⟩
  | .optionAttributes => inAttributes source ⟨[']'], .optionClose, .text⟩
  | .embedded resume => inLogic source search (some resume)
  | .logic => inLogic source search none

/-- The given number of steps, past faults and the end of input too, each with the reader after it. -/
def steps (search : ByteSearch) : Nat → Action (List (Item × ByteReader))
  | 0 => return []
  | count + 1 => do
    let item ← next source search
    let after ← get
    return (item, after) :: (← steps search count)

end ByteReader

end Questionnaire
