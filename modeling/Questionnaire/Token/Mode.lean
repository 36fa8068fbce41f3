import Questionnaire.Token.Basic

/-! The languages of a document and the marks that lead from one to another. Free text is left by an opening
mark and come back to by the closing one; an embedded expression goes back to the language it stands in, which
is why it cannot hold another. -/

namespace Questionnaire

/-- Where an embedded expression goes back to. -/
inductive Resume where
  | text
  | questionAttributes
  | optionAttributes
deriving DecidableEq, Inhabited, Repr

inductive Mode where
  | text
  | questionAttributes
  | optionAttributes
  | embedded (resume : Resume)
  | logic
deriving DecidableEq, Inhabited, Repr

namespace Resume

def mode : Resume → Mode
  | .text => .text
  | .questionAttributes => .questionAttributes
  | .optionAttributes => .optionAttributes

def name : Resume → String
  | .text => "Text"
  | .questionAttributes => "QuestionAttribute"
  | .optionAttributes => "OptionAttribute"

end Resume

namespace Mode

def name : Mode → String
  | .text => "Text"
  | .questionAttributes => "QuestionAttribute"
  | .optionAttributes => "OptionAttribute"
  | .embedded resume => "Embedded(" ++ resume.name ++ ")"
  | .logic => "LogicBlock"

/-- The point an expression embedded in this mode goes back to. -/
def resume : Mode → Resume
  | .questionAttributes => .questionAttributes
  | .optionAttributes => .optionAttributes
  | _ => .text

end Mode

/-- The marks that end a stretch of free text. -/
inductive Opener where
  | question
  | option
  | embedded
  | logic
deriving DecidableEq, Inhabited, Repr

namespace Opener

def spelling : Opener → List Char
  | .question => ['<', '<']
  | .option => ['[']
  | .embedded => ['$', '{']
  | .logic => ['<', '%']

def kind : Opener → TokenKind
  | .question => .questionOpen
  | .option => .optionOpen
  | .embedded => .embeddedOpen
  | .logic => .logicOpen

/-- The mode that the mark leads to from another. -/
def leadsTo (opener : Opener) (mode : Mode) : Mode :=
  match opener with
  | .question => .questionAttributes
  | .option => .optionAttributes
  | .embedded => .embedded mode.resume
  | .logic => .logic

/-- The opening mark at the front of the text. -/
def at? : List Char → Option Opener
  | '<' :: '<' :: _ => some .question
  | '[' :: _ => some .option
  | '$' :: '{' :: _ => some .embedded
  | '<' :: '%' :: _ => some .logic
  | _ => none

theorem eq_append_of_at? {text : List Char} {opener : Opener} (h : at? text = some opener) :
    text = opener.spelling ++ text.drop opener.spelling.length := by
  unfold at? at h
  split at h <;> simp_all [spelling]
  all_goals subst h; rfl

end Opener

/-- The mark that closes a mode, with its spelling and the mode it leads to. Free text has none. -/
structure Closer where
  spelling : List Char
  kind : TokenKind
  leadsTo : Mode
deriving DecidableEq, Repr

def Mode.closer? : Mode → Option Closer
  | .text => none
  | .questionAttributes => some ⟨['>', '>'], .questionClose, .text⟩
  | .optionAttributes => some ⟨[']'], .optionClose, .text⟩
  | .embedded resume => some ⟨['}'], .embeddedClose, resume.mode⟩
  | .logic => some ⟨['%', '>'], .logicClose, .text⟩

end Questionnaire
