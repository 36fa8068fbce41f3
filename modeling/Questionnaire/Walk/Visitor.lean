import Questionnaire.Walk.Outline
import Questionnaire.Diagnostic

/-! Walks. A visitor is told of every node when it is entered, before its children, and when it is left, after
them; the first fault of a visitor ends the walk. The same calls, in the same order, are the events of the
document. -/

namespace Questionnaire

/-- What to do on entering and on leaving a node. -/
structure Visitor (σ : Type) where
  enter : Place → Node → EStateM Diagnostic σ Unit
  leave : Place → Node → EStateM Diagnostic σ Unit

namespace Outline

variable {σ : Type}

mutual

def walk (visitor : Visitor σ) (place : Place) : Outline → EStateM Diagnostic σ Unit
  | mk node children => do
    visitor.enter place node
    walkFrom visitor place 0 children
    visitor.leave place node

/-- Walks the children of a place, from the given index on. -/
def walkFrom (visitor : Visitor σ) (place : Place) (index : Nat) : List Outline → EStateM Diagnostic σ Unit
  | [] => return
  | outline :: outlines => do
    outline.walk visitor (index :: place)
    walkFrom visitor place (index + 1) outlines

end

end Outline

/-- One call of a visitor. -/
inductive Event where
  | enter (place : Place) (node : Node)
  | leave (place : Place) (node : Node)
deriving Inhabited

namespace Event

variable {σ : Type}

def tell (visitor : Visitor σ) : Event → EStateM Diagnostic σ Unit
  | enter place node => visitor.enter place node
  | leave place node => visitor.leave place node

end Event

namespace Outline

mutual

def events (place : Place) : Outline → List Event
  | mk node children => .enter place node :: (eventsFrom place 0 children ++ [.leave place node])

def eventsFrom (place : Place) (index : Nat) : List Outline → List Event
  | [] => []
  | outline :: outlines => outline.events (index :: place) ++ eventsFrom place (index + 1) outlines

end

end Outline

namespace Document

variable {σ : Type}

def walk (visitor : Visitor σ) (document : Document) : EStateM Diagnostic σ Unit :=
  Outline.walkFrom visitor [] 0 document.outlines

/-- What a visitor has come to at the end of a walk, or the fault that ended it. -/
def walked (visitor : Visitor σ) (state : σ) (document : Document) : Except Diagnostic σ :=
  match document.walk visitor state with
  | .ok _ after => .ok after
  | .error diagnostic _ => .error diagnostic

/-- Walks one component alone, as the walk of the document does. -/
def walkComponent (visitor : Visitor σ) (document : Document) (index : Nat) : EStateM Diagnostic σ Unit :=
  match document.outlines[index]? with
  | some outline => outline.walk visitor [index]
  | none => return

def events (document : Document) : List Event := Outline.eventsFrom [] 0 document.outlines

end Document

end Questionnaire
