import Questionnaire.Legality.Structure
import Questionnaire.Number.Numeral
import Questionnaire.Text.Blank
import Questionnaire.Walk.Visitor

/-! The values of built-in attributes: a custom order is an expression, a bound is a whole number or an
expression, and data is a text. -/

namespace Questionnaire.Legality

def leastInteger : Int := -0x8000000000000000

def greatestInteger : Int := 0x7FFFFFFFFFFFFFFF

/-- The whole number that a text writes, blanks around it apart, kept within 64 bits. -/
def integer? (text : String) : Option Int := do
  let value ← Double.read? (Text.trim text.toList)
  let magnitude ← value.whole?
  if value.isNegative then return max (-Int.ofNat magnitude) leastInteger
  else return min (Int.ofNat magnitude) greatestInteger

def orderValue (a : Attribute) : Verdict :=
  match a.value with
  | some (.string _) => fault (.orderWithText a.name) a.span.last
  | _ => .ok ()

def boundValue (a : Attribute) : Verdict :=
  match a.value with
  | some (.string token) => if (integer? token.text).isNone then fault (.boundNotInteger a.name) token else .ok ()
  | some (.embedded _) => .ok ()
  | none => fault (.boundMissing a.name) a.span.first

def dataValue (a : Attribute) : Verdict :=
  match a.value with
  | some (.string _) => .ok ()
  | _ => fault .dataWithoutText a.span.first

def builtinValue (a : Attribute) : Verdict :=
  if (Vocabulary.rowOrders ++ Vocabulary.columnOrders).contains a.name then orderValue a
  else if (Vocabulary.selectionBounds ++ Vocabulary.valueBounds).contains a.name then boundValue a
  else if a.name = "data" then dataValue a
  else .ok ()

/-- The rules of values for a node. -/
def valued : Node → Verdict
  | .attr a => if a.custom then .ok () else builtinValue a
  | _ => .ok ()

/-- Gives its verdict on every node that it enters, and keeps nothing. -/
def judge (verdict : Node → Verdict) : Visitor Unit where
  enter _ node := MonadExcept.ofExcept (verdict node)
  leave _ _ := pure ()

end Questionnaire.Legality

namespace Questionnaire.Document

/-- Two walks: all nodes are tried for structure before any is for values. -/
def check (document : Document) : Verdict := do
  document.walked (Legality.judge Legality.structural) ()
  document.walked (Legality.judge Legality.valued) ()

end Questionnaire.Document
