import Questionnaire.Document.Basic

/-! Operands joined by operators. A chain is read from left to right, operand by operand, and grows along its
right edge: a new operator takes as its left side all of the edge that binds at least as tightly. Reading a
chain from left to right gives back the operators and operands it was made of. -/

namespace Questionnaire

/-- The operands keep the groups they were read with. -/
inductive Chain where
  | operand (expr : Expr)
  | operation (left : Chain) (op : BinaryOp) (right : Chain)
deriving Inhabited, Repr

namespace Chain

/-- Joins one more operand on the right. -/
def push (op : BinaryOp) (operand : Expr) : Chain → Chain
  | .operand expr => operation (.operand expr) op (.operand operand)
  | .operation left edge right =>
    if edge.precedence < op.precedence then operation left edge (push op operand right)
    else operation (operation left edge right) op (.operand operand)

def ofLinks (first : Expr) (links : List (BinaryOp × Expr)) : Chain :=
  links.foldl (fun chain link => chain.push link.1 link.2) (operand first)

/-- The expression of a chain; an operation spans its two sides. -/
def expr : Chain → Expr
  | operand expr => expr
  | operation left op right => .binary left.expr op right.expr ⟨left.expr.span.first, right.expr.span.last⟩

/-- The leftmost operand. -/
def first : Chain → Expr
  | operand expr => expr
  | operation left _ _ => left.first

/-- The operators from left to right, each with the operand after it. -/
def links : Chain → List (BinaryOp × Expr)
  | operand _ => []
  | operation left op right => left.links ++ (op, right.first) :: right.links

theorem first_push (op : BinaryOp) (expr : Expr) (chain : Chain) : (chain.push op expr).first = chain.first := by
  cases chain with
  | operand => rfl
  | operation left edge right =>
    unfold push
    split <;> rfl

theorem links_push (op : BinaryOp) (expr : Expr) (chain : Chain) :
    (chain.push op expr).links = chain.links ++ [(op, expr)] := by
  induction chain with
  | operand => rfl
  | operation left edge right _ ih =>
    unfold push
    split
    · simp [links, ih, first_push]
    · simp [links, first]

theorem first_ofLinks (first : Expr) (links : List (BinaryOp × Expr)) : (ofLinks first links).first = first := by
  have fold (chain : Chain) : (links.foldl (fun chain link => chain.push link.1 link.2) chain).first = chain.first := by
    induction links generalizing chain with
    | nil => rfl
    | cons link links ih => rw [List.foldl_cons, ih, first_push]
  exact fold (operand first)

theorem links_ofLinks (first : Expr) (links : List (BinaryOp × Expr)) : (ofLinks first links).links = links := by
  have fold (chain : Chain) :
      (links.foldl (fun chain link => chain.push link.1 link.2) chain).links = chain.links ++ links := by
    induction links generalizing chain with
    | nil => simp
    | cons link links ih => rw [List.foldl_cons, ih, links_push, List.append_assoc, List.singleton_append]
  exact fold (operand first)

end Chain

end Questionnaire
