import Questionnaire.Command.Run

/-! The command line: reads the file that the arguments name, writes what the command reports and ends with its
code. -/

namespace Questionnaire.Command

/-- The system's words for a failure, and its number. -/
def systemReason : IO.Error → String
  | .noFileOrDirectory _ code details => s!"{details} (os error {code})"
  | .permissionDenied _ code details => s!"{details} (os error {code})"
  | .inappropriateType _ code details => s!"{details} (os error {code})"
  | .resourceExhausted _ code details => s!"{details} (os error {code})"
  | .invalidArgument _ code details => s!"{details} (os error {code})"
  | other => toString other

def readBytes (name : String) : IO (Except FileFault (List Nat)) := do
  match ← (IO.FS.Handle.mk name .read).toBaseIO with
  | .error reason => return .error (.notOpened (systemReason reason))
  | .ok handle =>
    match ← handle.readBinToEnd.toBaseIO with
    | .error reason => return .error (.notRead (systemReason reason))
    | .ok bytes => return .ok (bytes.toList.map UInt8.toNat)

/-- Empties the log if one is asked for. -/
def openLog (wanted : Bool) : IO (Except String Unit) := do
  if wanted then
    match ← (IO.FS.writeFile "surveyc.log" "").toBaseIO with
    | .error reason => return .error (systemReason reason)
    | .ok _ => return .ok ()
  else return .ok ()

def write (report : Report) : IO UInt32 := do
  IO.print report.output
  IO.eprint report.errors
  return UInt32.ofNat report.code

def execute (reading : Reading) : IO UInt32 := do
  match reading with
  | .request asked =>
    match ← openLog asked.log with
    | .error reason => write (.failure "Failed to create surveyc.log" reason false)
    | .ok _ =>
      let contents ← match asked.file with
        | some name => readBytes name
        | none => pure (.ok [])
      write (reading.run fun _ => contents)
  | _ => write (reading.run fun _ => .ok [])

end Questionnaire.Command

def main (arguments : List String) : IO UInt32 :=
  Questionnaire.Command.execute (Questionnaire.Command.Reading.ofArguments arguments)
