import Questionnaire.Main
import Questionnaire.Document.Rendered
import Questionnaire.Proofs.Grammar.Height
import Questionnaire.Proofs.Grammar.Spans
import Questionnaire.Proofs.Symbols.Scoping
import Questionnaire.Proofs.Legality.Check
import Questionnaire.Proofs.Document.Layout
import Questionnaire.Proofs.Grammar.Blame
import Questionnaire.Proofs.Grammar.Genuine
import Questionnaire.Proofs.Walk.Events
import Questionnaire.Proofs.Token.CarriageReturns
import Questionnaire.Proofs.Document.Concatenation
import Questionnaire.Proofs.Symbols.Kept
import Questionnaire.Proofs.Symbols.Log
import Questionnaire.Proofs.Grammar.Climbing
import Questionnaire.Proofs.Grammar.Ending
import Questionnaire.Proofs.Token.TextRuns
import Questionnaire.Proofs.Token.LongestMatch
import Questionnaire.Proofs.Grammar.Guided
import Questionnaire.Proofs.Grammar.Resuming
import Questionnaire.Proofs.Symbols.Inventory
import Questionnaire.Proofs.Symbols.Reachable
import Questionnaire.Proofs.Token.Quotes
import Questionnaire.Proofs.Number.Written
import Questionnaire.Proofs.Legality.Integers
import Questionnaire.Proofs.Document.Rendered
import Questionnaire.Proofs.Token.Exhausted
import Questionnaire.Proofs.Grammar.Pulling
import Questionnaire.Proofs.Grammar.Restoring
import Questionnaire.Proofs.Symbols.Ownership
import Questionnaire.Proofs.Token.Bounds
