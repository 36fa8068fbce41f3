import Questionnaire.Command.Arguments
import Questionnaire.Document.Interchange
import Questionnaire.Text.Utf8
import Questionnaire.Analysis

/-! What a command writes and how it ends, given what the files hold. -/

namespace Questionnaire.Command

/-- Why a file cannot be read, in the words of the system. -/
inductive FileFault where
  | notOpened (reason : String)
  | notRead (reason : String)
deriving DecidableEq, Inhabited, Repr

/-- The bytes of a file, by its name. -/
abbrev Files := String → Except FileFault (List Nat)

structure Report where
  code : Nat
  output : String
  errors : String
  /-- Whether a log was asked for. -/
  log : Bool
deriving DecidableEq, Inhabited, Repr

namespace Report

/-- The codes that a command ends with. -/
def success : Nat := 0

def unreadable : Nat := 1

def misused : Nat := 2

def faulty : Nat := 65

def refused : Report := ⟨misused, "", "", false⟩

def version : Report := ⟨success, "surveyc 0.1.0\n", "", false⟩

def fileMissing (log : Bool) : Report := ⟨success, "No input filepath was provided. Exiting...\n", "", log⟩

/-- A failure and what caused it. -/
def failure (message cause : String) (log : Bool) : Report :=
  ⟨unreadable, "", "Error: " ++ message ++ "\n\nCaused by:\n    " ++ cause ++ "\n", log⟩

def unopened (file reason : String) (log : Bool) : Report :=
  failure ("Failed to open file " ++ Text.quoted file) reason log

def unread (file reason : String) (log : Bool) : Report :=
  failure ("Failed to read file " ++ Text.quoted file) reason log

def notText (file : String) (stop : Text.Utf8.Break) (log : Bool) : Report :=
  failure (Text.quoted file ++ " is not valid UTF-8") stop.message log

/-- A fault of the document, after what was already written. -/
def diagnosed (output : String) (diagnostic : Diagnostic) (log : Bool) : Report :=
  ⟨faulty, output, diagnostic.display ++ "\n", log⟩

end Report

/-- Each token on a line of its own, up to the first fault. -/
def tokenLines (source : String) : String × Option Diagnostic :=
  let lines := (itemsOf source).map fun
    | .ok token => token.display ++ "\n"
    | .error _ => ""
  (String.join lines, (itemsOf source).findSome? fun
    | .ok _ => none
    | .error diagnostic => some diagnostic)

/-- The document as data, on many lines. -/
def tree (document : Document) : String := (Encoding.standard.document document).pretty 0 ++ "\n"

/-- The number of symbols of each kind, after a word of approval. -/
def summary (table : Table) : String :=
  "ok\n" ++ String.join (table.counts.map fun (label, count) => s!"{label}: {count}\n")

def Action.run (action : Action) (limits : Limits) (source : String) (log : Bool) : Report :=
  match action with
  | .tokenize =>
    match tokenLines source with
    | (output, some diagnostic) => .diagnosed output diagnostic log
    | (output, none) => ⟨Report.success, output, "", log⟩
  | .parse =>
    match Document.parse limits source with
    | .ok document => ⟨Report.success, tree document, "", log⟩
    | .error diagnostic => .diagnosed "" diagnostic log
  | .check =>
    match Document.parse limits source >>= Document.analyze with
    | .ok table => ⟨Report.success, summary table, "", log⟩
    | .error diagnostic => .diagnosed "" diagnostic log

def Request.run (request : Request) (files : Files) : Report :=
  match request.file with
  | none => .fileMissing request.log
  | some file =>
    match files file with
    | .error (.notOpened reason) => .unopened file reason request.log
    | .error (.notRead reason) => .unread file reason request.log
    | .ok bytes =>
      match Text.Utf8.decode bytes with
      | .error stop => .notText file stop request.log
      | .ok source => request.action.run request.limits source request.log

def Reading.run (reading : Reading) (files : Files) : Report :=
  match reading with
  | .refused => .refused
  | .version => .version
  | .request asked => asked.run files

def run (arguments : List String) (files : Files) : Report := (Reading.ofArguments arguments).run files

end Questionnaire.Command
