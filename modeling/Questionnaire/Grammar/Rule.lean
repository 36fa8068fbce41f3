import Questionnaire.Token.Lexer
import Questionnaire.Document.Basic

/-! Rules of the grammar. A rule reads from a parser, which holds one token ahead of those it has taken, and
either answers what it read or stops at the first fault; the parser it leaves is known in both cases. Two
counters keep a hostile document from growing a tree too tall: one of the brackets that are open, and one of
the operators and members of the expression at hand. -/

namespace Questionnaire

structure Limits where
  /-- How many brackets may be open at once. -/
  maxNesting : Nat
  /-- How many operators and members one expression may hold. -/
  maxExpressionDepth : Nat
deriving DecidableEq, Inhabited, Repr

def Limits.standard : Limits := ⟨64, 256⟩

structure Parser where
  limits : Limits
  /-- What the supplier of tokens has yet to yield. -/
  items : List Item
  /-- The token ahead. -/
  current : Token
  /-- The last token taken. -/
  previous : Token
  started : Bool
  depth : Nat
  links : Nat
deriving Inhabited

namespace Parser

/-- Stands ahead until the first token has come. -/
def placeholder : Token := ⟨.endOfInput, "", .origin⟩

def ofItems (limits : Limits) (items : List Item) : Parser := ⟨limits, items, placeholder, placeholder, false, 0, 0⟩

def ofSource (limits : Limits) (source : String) : Parser := ofItems limits (itemsOf source)

end Parser

abbrev Rule := EStateM Diagnostic Parser

namespace Rule

variable {α : Type}

def current : Rule Token := fun parser => .ok parser.current parser

/-- Stops, with the token ahead to blame. -/
def refuse (fault : Fault) : Rule α := fun parser => .error ⟨fault, parser.current.position⟩ parser

/-- The next token of the supplier, whose faults are passed on as they are. -/
def fetch : Rule Token := fun parser =>
  match parser.items with
  | [] => refuse .streamEnded parser
  | .ok token :: items => .ok token { parser with items }
  | .error diagnostic :: items => .error diagnostic { parser with items }

/-- Takes the token ahead. The end of input stays ahead for ever. -/
def shift : Rule Unit := fun parser =>
  if parser.current.kind = .endOfInput then .ok () parser
  else
    match fetch parser with
    | .ok token after => .ok () { after with current := token, previous := parser.current }
    | .error diagnostic after => .error diagnostic after

/-- Pulls the first token, the first time that it is run. -/
def start : Rule Unit := fun parser =>
  if parser.started then .ok () parser
  else
    match fetch { parser with started := true } with
    | .ok token after => .ok () { after with current := token }
    | .error diagnostic after => .error diagnostic after

/-- Takes a token of the kind. -/
def expect (kind : TokenKind) : Rule Token := do
  let token ← current
  if token.kind = kind then
    shift
    return token
  else refuse (.expected kind.description token.found)

/-- Takes a token of the kind that spells the word. -/
def expectWord (kind : TokenKind) (word : String) : Rule Token := do
  let token ← current
  if token.spells kind word then
    shift
    return token
  else refuse (.expected word token.found)

/-- Takes the token ahead if it spells the word, and says whether it did. -/
def passWord (kind : TokenKind) (word : String) : Rule Bool := do
  if (← current).spells kind word then
    shift
    return true
  else return false

def refuseUnexpected : Rule α := do refuse (.unexpectedToken (← current).found)

/-- From the token to the last one taken. -/
def spanSince (first : Token) : Rule Span := fun parser => .ok ⟨first, parser.previous⟩ parser

/-- Rounds as long as the token ahead offers one. Each takes an item, so that the items bound their number. -/
def rounds (offer : Token → Option (Rule α)) : List Item → Rule (List α)
  | [] => do
    match offer (← current) with
    | none => return []
    | some round => return [← round]
  | _ :: items => do
    match offer (← current) with
    | none => return []
    | some round => return (← round) :: (← rounds offer items)

def repeatWhile (offer : Token → Option (Rule α)) : Rule (List α) := fun parser =>
  rounds offer parser.items parser

/-- Runs a rule and changes the parser it leaves, whether it answers or stops. -/
def leaving (exit : Parser → Parser) (rule : Rule α) : Rule α := fun parser =>
  match rule parser with
  | .ok value after => .ok value (exit after)
  | .error diagnostic after => .error diagnostic (exit after)

/-- A rule between brackets. -/
def bracketed (rule : Rule α) : Rule α := fun parser =>
  if parser.limits.maxNesting ≤ parser.depth then refuse .tooDeep parser
  else leaving (fun after => { after with depth := after.depth - 1 }) rule { parser with depth := parser.depth + 1 }

/-- A rule for an expression that no other one contains, which has a budget of its own. -/
def budgeted (rule : Rule α) : Rule α := fun parser =>
  leaving (fun after => { after with links := parser.links }) rule { parser with links := 0 }

/-- Charges one operator or member. -/
def charge : Rule Unit := fun parser =>
  if parser.limits.maxExpressionDepth ≤ parser.links then refuse .tooDeep parser
  else .ok () { parser with links := parser.links + 1 }

end Rule

end Questionnaire
