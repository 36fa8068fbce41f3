import Questionnaire.Grammar.Chain
import Questionnaire.Grammar.Expression
import Questionnaire.Diagnostic

/-! Documents whose tokens stand elsewhere. To relocate a tree is to move every token in it and to leave all else, so
that relocating twice is relocating once. Two documents are the same up to the places of their tokens if they become
equal when all tokens are moved to one place. -/

namespace Questionnaire

def Token.relocate (move : Position → Position) (token : Token) : Token :=
  { token with position := move token.position }

def Span.relocate (move : Position → Position) (span : Span) : Span :=
  ⟨span.first.relocate move, span.last.relocate move⟩

namespace Expr

mutual

def relocate (move : Position → Position) : Expr → Expr
  | .binary left op right span => .binary (left.relocate move) op (right.relocate move) (span.relocate move)
  | .assign target value span => .assign (target.relocate move) (value.relocate move) (span.relocate move)
  | .symbol name span => .symbol (name.relocate move) (span.relocate move)
  | .property container name span =>
    .property (container.relocate move) (name.relocate move) (span.relocate move)
  | .number value span => .number value (span.relocate move)
  | .string value span => .string value (span.relocate move)
  | .boolean value span => .boolean value (span.relocate move)
  | .undefined span => .undefined (span.relocate move)
  | .answered question mode answers span =>
    .answered (question.relocate move) mode (relocateAll move answers) (span.relocate move)

def relocateAll (move : Position → Position) : List Expr → List Expr
  | [] => []
  | expr :: exprs => expr.relocate move :: relocateAll move exprs

end

end Expr

def SimpleStatement.relocate (move : Position → Position) (statement : SimpleStatement) : SimpleStatement :=
  ⟨statement.expression.relocate move, statement.span.relocate move⟩

mutual

def Statement.relocate (move : Position → Position) : Statement → Statement
  | .simple statement => .simple (statement.relocate move)
  | .rule name conditions action span =>
    .rule (name.relocate move) (conditions.map (SimpleStatement.relocate move)) (action.relocate move)
      (span.relocate move)
  | .action name action span => .action (name.relocate move) (action.relocate move) (span.relocate move)
  | .conditionSet name conditions span =>
    .conditionSet (name.relocate move) (conditions.map (SimpleStatement.relocate move)) (span.relocate move)
  | .declaration name value span =>
    .declaration (name.relocate move) (value.map (Expr.relocate move)) (span.relocate move)
  | .command name arguments span =>
    .command (name.relocate move) (arguments.map (Expr.relocate move)) (span.relocate move)
  | .evaluate target span => .evaluate (target.relocate move) (span.relocate move)
  | .perform target span => .perform (target.relocate move) (span.relocate move)

def Block.relocate (move : Position → Position) : Block → Block
  | ⟨statements, span⟩ => ⟨Statement.relocateAll move statements, span.relocate move⟩

def Statement.relocateAll (move : Position → Position) : List Statement → List Statement
  | [] => []
  | statement :: statements => statement.relocate move :: Statement.relocateAll move statements

end

def TextPart.relocate (move : Position → Position) : TextPart → TextPart
  | .text token => .text (token.relocate move)
  | .embedded statement => .embedded (statement.relocate move)

def AttributeValue.relocate (move : Position → Position) : AttributeValue → AttributeValue
  | .string token => .string (token.relocate move)
  | .embedded statement => .embedded (statement.relocate move)

def Attribute.relocate (move : Position → Position) (owned : Attribute) : Attribute :=
  ⟨owned.name, owned.value.map (AttributeValue.relocate move), owned.custom, owned.span.relocate move⟩

def AnswerOption.relocate (move : Position → Position) (option : AnswerOption) : AnswerOption :=
  ⟨option.texts.map (TextPart.relocate move), option.attributes.map (Attribute.relocate move),
    option.span.relocate move⟩

def Question.relocate (move : Position → Position) (question : Question) : Question :=
  ⟨question.texts.map (TextPart.relocate move), question.attributes.map (Attribute.relocate move),
    question.rows.map (AnswerOption.relocate move), question.columns.map (AnswerOption.relocate move),
    question.span.relocate move⟩

def Section.relocate (move : Position → Position) (heading : Section) : Section :=
  ⟨heading.attributes.map (Attribute.relocate move), heading.span.relocate move⟩

def Interlude.relocate (move : Position → Position) (interlude : Interlude) : Interlude :=
  ⟨interlude.statements.map (Statement.relocate move), interlude.span.relocate move⟩

def Component.relocate (move : Position → Position) : Component → Component
  | .question q => .question (q.relocate move)
  | .heading h => .heading (h.relocate move)
  | .interlude i => .interlude (i.relocate move)

namespace Document

def relocate (move : Position → Position) (document : Document) : Document :=
  ⟨document.components.map (Component.relocate move)⟩

/-- The document without the places of its tokens. -/
def unplaced (document : Document) : Document := document.relocate fun _ => .origin

end Document

def Diagnostic.relocate (move : Position → Position) (diagnostic : Diagnostic) : Diagnostic :=
  ⟨diagnostic.fault, move diagnostic.position⟩

/-- What would have come of relocated tokens. -/
def relocateOutcome {α : Type} (move : Position → Position) (relocate : α → α) :
    Except Diagnostic α → Except Diagnostic α
  | .ok value => .ok (relocate value)
  | .error diagnostic => .error (diagnostic.relocate move)

/-! Relocating twice. -/

variable {move other : Position → Position}

@[simp] theorem Token.relocate_relocate (token : Token) :
    (token.relocate move).relocate other = token.relocate (other ∘ move) := rfl

@[simp] theorem Span.relocate_relocate (span : Span) :
    (span.relocate move).relocate other = span.relocate (other ∘ move) := rfl

namespace Expr

theorem relocateAll_eq_map (exprs : List Expr) : relocateAll move exprs = exprs.map (relocate move) := by
  induction exprs with
  | nil => rfl
  | cons expr exprs ih => rw [relocateAll, ih, List.map_cons]

mutual

@[simp] theorem relocate_relocate (expr : Expr) :
    (expr.relocate move).relocate other = expr.relocate (other ∘ move) := by
  cases expr with
  | binary left op right span => simp [relocate, relocate_relocate left, relocate_relocate right]
  | assign target value span => simp [relocate, relocate_relocate value]
  | symbol name span => rfl
  | property container name span => simp [relocate, relocate_relocate container]
  | number value span => rfl
  | string value span => rfl
  | boolean value span => rfl
  | undefined span => rfl
  | answered question mode answers span => simp [relocate, relocateAll_relocateAll answers]

theorem relocateAll_relocateAll (exprs : List Expr) :
    relocateAll other (relocateAll move exprs) = relocateAll (other ∘ move) exprs := by
  cases exprs with
  | nil => rfl
  | cons expr exprs => rw [relocateAll, relocateAll, relocateAll, relocate_relocate expr, relocateAll_relocateAll exprs]

end

end Expr

@[simp] theorem SimpleStatement.relocate_relocate (statement : SimpleStatement) :
    (statement.relocate move).relocate other = statement.relocate (other ∘ move) := by
  simp [relocate]

theorem Statement.relocateAll_eq_map (statements : List Statement) :
    Statement.relocateAll move statements = statements.map (Statement.relocate move) := by
  induction statements with
  | nil => rfl
  | cons statement statements ih => rw [Statement.relocateAll, ih, List.map_cons]

mutual

@[simp] theorem Statement.relocate_relocate (statement : Statement) :
    (statement.relocate move).relocate other = statement.relocate (other ∘ move) := by
  cases statement with
  | simple statement => simp [Statement.relocate]
  | rule name conditions action span => simp [Statement.relocate, Block.relocate_relocate action]
  | action name action span => simp [Statement.relocate, Block.relocate_relocate action]
  | conditionSet name conditions span => simp [Statement.relocate]
  | declaration name value span => cases value <;> simp [Statement.relocate]
  | command name arguments span => simp [Statement.relocate]
  | evaluate target span => rfl
  | perform target span => rfl

theorem Block.relocate_relocate (block : Block) :
    (block.relocate move).relocate other = block.relocate (other ∘ move) := by
  cases block with
  | mk statements span =>
      rw [Block.relocate, Block.relocate, Block.relocate, Statement.relocateAll_relocateAll statements,
        Span.relocate_relocate]

theorem Statement.relocateAll_relocateAll (statements : List Statement) :
    Statement.relocateAll other (Statement.relocateAll move statements) =
      Statement.relocateAll (other ∘ move) statements := by
  cases statements with
  | nil => rfl
  | cons statement statements =>
      rw [Statement.relocateAll, Statement.relocateAll, Statement.relocateAll, Statement.relocate_relocate statement,
        Statement.relocateAll_relocateAll statements]

end

@[simp] theorem TextPart.relocate_relocate (part : TextPart) :
    (part.relocate move).relocate other = part.relocate (other ∘ move) := by
  cases part <;> simp [relocate]

@[simp] theorem AttributeValue.relocate_relocate (value : AttributeValue) :
    (value.relocate move).relocate other = value.relocate (other ∘ move) := by
  cases value <;> simp [relocate]

@[simp] theorem Attribute.relocate_relocate (owned : Attribute) :
    (owned.relocate move).relocate other = owned.relocate (other ∘ move) := by
  obtain ⟨name, value, custom, span⟩ := owned
  cases value <;> simp [relocate]

@[simp] theorem AnswerOption.relocate_relocate (option : AnswerOption) :
    (option.relocate move).relocate other = option.relocate (other ∘ move) := by
  simp [relocate]

@[simp] theorem Component.relocate_relocate (component : Component) :
    (component.relocate move).relocate other = component.relocate (other ∘ move) := by
  cases component with
  | question q => simp [relocate, Question.relocate]
  | heading h => simp [relocate, Section.relocate]
  | interlude i => simp [relocate, Interlude.relocate]

theorem Document.relocate_relocate (document : Document) :
    (document.relocate move).relocate other = document.relocate (other ∘ move) := by
  simp [relocate]

/-- Relocated documents are the same up to the places of their tokens. -/
theorem Document.unplaced_relocate (document : Document) : (document.relocate move).unplaced = document.unplaced :=
  document.relocate_relocate

/-! What is built from relocated parts. -/

namespace Token

@[simp] theorem relocate_kind (token : Token) : (token.relocate move).kind = token.kind := rfl

@[simp] theorem relocate_text (token : Token) : (token.relocate move).text = token.text := rfl

@[simp] theorem relocate_spells (token : Token) (kind : TokenKind) (word : String) :
    (token.relocate move).spells kind word = token.spells kind word := rfl

end Token

namespace Expr

@[simp] theorem span_relocate (expr : Expr) : (expr.relocate move).span = expr.span.relocate move := by
  cases expr <;> rfl

theorem withSpan_relocate (expr : Expr) (span : Span) :
    (expr.relocate move).withSpan (span.relocate move) = (expr.withSpan span).relocate move := by
  cases expr <;> rfl

@[simp] theorem isReference_relocate (expr : Expr) : (expr.relocate move).isReference = expr.isReference := by
  cases expr <;> rfl

theorem foldl_property_relocate (container : Expr) (names : List Token) :
    (names.map (Token.relocate move)).foldl (fun owner name => .property owner name ⟨owner.span.first, name⟩)
        (container.relocate move) =
      (names.foldl (fun owner name => .property owner name ⟨owner.span.first, name⟩) container).relocate move := by
  induction names generalizing container with
  | nil => rfl
  | cons name names ih =>
      rw [List.map_cons, List.foldl_cons, List.foldl_cons, ← ih, span_relocate]
      rfl

theorem constant_relocate (word : String) (span : Span) :
    Rule.constant word (span.relocate move) = (Rule.constant word span).relocate move := by
  unfold Rule.constant
  split
  · rfl
  · split <;> rfl

end Expr

/-- An operator with the operand after it. -/
def BinaryOp.relocateLink (move : Position → Position) (link : BinaryOp × Expr) : BinaryOp × Expr :=
  (link.1, link.2.relocate move)

namespace Chain

def relocate (move : Position → Position) : Chain → Chain
  | operand expr => operand (expr.relocate move)
  | operation left op right => operation (left.relocate move) op (right.relocate move)

theorem push_relocate (op : BinaryOp) (expr : Expr) (chain : Chain) :
    (chain.relocate move).push op (expr.relocate move) = (chain.push op expr).relocate move := by
  induction chain with
  | operand => rfl
  | operation left edge right _ ih =>
      rw [relocate, push, push, ih]
      split <;> rfl

theorem ofLinks_relocate (first : Expr) (links : List (BinaryOp × Expr)) :
    ofLinks (first.relocate move) (links.map (BinaryOp.relocateLink move)) = (ofLinks first links).relocate move := by
  have fold (chain : Chain) : (links.map (BinaryOp.relocateLink move)).foldl
      (fun chain link => chain.push link.1 link.2) (chain.relocate move) =
      (links.foldl (fun chain link => chain.push link.1 link.2) chain).relocate move := by
    induction links generalizing chain with
    | nil => rfl
    | cons link links ih => rw [List.map_cons, List.foldl_cons, List.foldl_cons, ← ih, ← push_relocate]; rfl
  exact fold (operand first)

theorem expr_relocate (chain : Chain) : (chain.relocate move).expr = chain.expr.relocate move := by
  induction chain with
  | operand => rfl
  | operation left op right ihLeft ihRight =>
      rw [relocate, expr, expr, Expr.relocate, ihLeft, ihRight, Expr.span_relocate, Expr.span_relocate]
      rfl

end Chain

/-- Which attributes are built in does not depend on where they stand. -/
theorem Attribute.builtin_relocate (attributes : List Attribute) :
    builtin (attributes.map (relocate move)) = (builtin attributes).map (relocate move) :=
  List.filter_map

theorem AnswerOption.isColumn_relocate (option : AnswerOption) :
    (option.relocate move).isColumn = option.isColumn := by
  rw [isColumn, relocate, Attribute.builtin_relocate, List.any_map]
  rfl

end Questionnaire
