import Questionnaire.Grammar.Rule

/-! The arguments of the command line: an action, perhaps the name of a file, and options that may stand before
the action or after it. An option stands at most once on either side, and of two values the one after the action
holds. Faults are not told apart, and the first one hides all that follows it. -/

namespace Questionnaire.Command

inductive Action where
  | tokenize
  | parse
  | check
deriving DecidableEq, Inhabited, Repr

def Action.all : List Action := [.tokenize, .parse, .check]

def Action.name : Action → String
  | .tokenize => "tokenize"
  | .parse => "parse"
  | .check => "check"

def Action.ofName? (word : String) : Option Action := Action.all.find? fun action => action.name == word

/-- The options given on one side of the action. -/
structure Options where
  log : Bool
  maxNesting : Option Nat
  maxExpressionDepth : Option Nat
deriving DecidableEq, Inhabited, Repr

def Options.none : Options := ⟨false, Option.none, Option.none⟩

structure Request where
  action : Action
  file : Option String
  log : Bool
  limits : Limits
deriving DecidableEq, Inhabited, Repr

/-- What the arguments ask for. -/
inductive Reading where
  | refused
  | version
  | request (request : Request)
deriving DecidableEq, Inhabited, Repr

inductive LimitName where
  | maxNesting
  | maxExpressionDepth
deriving DecidableEq, Inhabited, Repr

def LimitName.spelling : LimitName → String
  | .maxNesting => "--max-nesting"
  | .maxExpressionDepth => "--max-expression-depth"

def LimitName.ofSpelling? (word : String) : Option LimitName :=
  [LimitName.maxNesting, LimitName.maxExpressionDepth].find? fun name => name.spelling == word

/-- One thing said by the arguments. -/
inductive Word where
  | log
  | version
  | limit (name : LimitName) (value : Nat)
  | plain (text : String)
  /-- All arguments after this one are plain. -/
  | separator
  | stray
deriving DecidableEq, Inhabited, Repr

/-- Limits are below two to the 64. -/
def limitBound : Nat := Nat.pow 2 64

/-- Digits, perhaps after a plus sign, for a number that a limit can be. -/
def limit? (text : String) : Option Nat :=
  let digits := match text.toList with
    | '+' :: rest => rest
    | all => all
  if digits.isEmpty || !digits.all Char.isDigit then none
  else
    let value := digits.foldl (fun value digit => 10 * value + (digit.toNat - '0'.toNat)) 0
    if value < limitBound then some value else none

/-- An option that holds its value after an equals sign. -/
def attached (argument : String) : Word :=
  let text := argument.toList
  let value := (text.dropWhile fun c => c != '=').drop 1
  match LimitName.ofSpelling? (String.ofList (text.takeWhile fun c => c != '=')), limit? (String.ofList value) with
  | some name, some value => .limit name value
  | _, _ => .stray

/-- An argument that does not take the one after it along. -/
def Word.ofArgument (argument : String) : Word :=
  match argument.toList with
  | ['-'] => .plain argument
  | '-' :: '-' :: _ =>
    if argument = "--log" then .log
    else if argument = "--version" then .version
    else attached argument
  | '-' :: 'V' :: _ => .version
  | '-' :: _ => .stray
  | _ => .plain argument

def Word.ofArguments : List String → List Word
  | [] => []
  | [argument] => if argument = "--" then [.separator] else [.ofArgument argument]
  | argument :: next :: others =>
    if argument = "--" then .separator :: .plain next :: others.map .plain
    else
      match LimitName.ofSpelling? argument, limit? next with
      | some name, some value => .limit name value :: ofArguments others
      | some _, none => [.stray]
      | none, _ => .ofArgument argument :: ofArguments (next :: others)

/-- Adds an option to those on one side; one that is there already is refused. -/
def Options.add (options : Options) : Word → Option Options
  | .log => if options.log then .none else some { options with log := true }
  | .limit .maxNesting value =>
    if options.maxNesting.isSome then .none else some { options with maxNesting := some value }
  | .limit .maxExpressionDepth value =>
    if options.maxExpressionDepth.isSome then .none else some { options with maxExpressionDepth := some value }
  | _ => .none

def Request.ofOptions (action : Action) (file : Option String) (before after : Options) : Request :=
  ⟨action, file, before.log || after.log,
    ((after.maxNesting <|> before.maxNesting).getD Limits.standard.maxNesting),
    ((after.maxExpressionDepth <|> before.maxExpressionDepth).getD Limits.standard.maxExpressionDepth)⟩

/-- The arguments after the action. -/
def Reading.afterAction (action : Action) (before : Options) (after : Options) (file : Option String) :
    List Word → Reading
  | [] => .request (.ofOptions action file before after)
  | .separator :: words => afterAction action before after file words
  | .plain text :: words =>
    if text.isEmpty || file.isSome then .refused else afterAction action before after (some text) words
  | word :: words =>
    match after.add word with
    | some after => afterAction action before after file words
    | none => .refused

/-- The arguments from the first one on. -/
def Reading.beforeAction (before : Options) : List Word → Reading
  | [] => .refused
  | .version :: _ => .version
  | .plain text :: words =>
    match Action.ofName? text with
    | some action => .afterAction action before .none none words
    | none => .refused
  | word :: words =>
    match before.add word with
    | some before => beforeAction before words
    | none => .refused

def Reading.ofArguments (arguments : List String) : Reading := .beforeAction .none (Word.ofArguments arguments)

end Questionnaire.Command
