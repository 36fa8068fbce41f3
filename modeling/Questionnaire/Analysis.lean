import Questionnaire.Grammar.Document
import Questionnaire.Legality.Values
import Questionnaire.Symbols.Declarations

/-! All that is asked of a document once it has been read, and of a source from the start. -/

namespace Questionnaire

/-- The symbols of a document that keeps the rules. -/
def Document.analyze (document : Document) : Except Diagnostic Table := do
  document.check
  Table.ofDocument document

/-- The document that a source writes, if it keeps the rules and leaves the names of the survey alone. -/
def compile (limits : Limits) (source : String) : Except Diagnostic Document := do
  let document ← Document.parse limits source
  let _ ← document.analyze
  return document

end Questionnaire
