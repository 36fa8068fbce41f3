import Questionnaire.Grammar.Chain

/-! What precedence makes of a row of operands. A chain is well ordered if no operator has one below it that binds
less tightly, nor on its right one that binds as tightly. Reading from left to right gives a well ordered chain, and
there is no other over the same operands and operators. -/

namespace Questionnaire.Chain

/-- The operator that joins the two sides of the chain. -/
def root? : Chain → Option BinaryOp
  | operand _ => none
  | operation _ op _ => some op

/-- Operators bind more tightly the deeper they stand, and strictly so on the right. -/
def Ordered : Chain → Prop
  | operand _ => True
  | operation left op right =>
    (∀ lower ∈ left.root?, op.precedence ≤ lower.precedence) ∧
      (∀ lower ∈ right.root?, op.precedence < lower.precedence) ∧ left.Ordered ∧ right.Ordered

theorem root?_push {op root : BinaryOp} {expr : Expr} {chain : Chain} (h : root ∈ (chain.push op expr).root?) :
    root = op ∨ root ∈ chain.root? := by
  cases chain with
  | operand => exact .inl (Option.some.inj h).symm
  | operation left edge right =>
      unfold push at h
      split at h
      · exact .inr h
      · exact .inl (Option.some.inj h).symm

theorem ordered_push {op : BinaryOp} {expr : Expr} {chain : Chain} (h : chain.Ordered) :
    (chain.push op expr).Ordered := by
  induction chain with
  | operand => exact ⟨by simp [root?], by simp [root?], trivial, trivial⟩
  | operation left edge right _ ih =>
      obtain ⟨hleft, hright, hleftOrdered, hrightOrdered⟩ := h
      unfold push
      split
      next htight =>
        refine ⟨hleft, ?_, hleftOrdered, ih hrightOrdered⟩
        intro lower hlower
        rcases root?_push hlower with rfl | hlower
        · exact htight
        · exact hright _ hlower
      next hloose =>
        refine ⟨?_, by simp [root?], ⟨hleft, hright, hleftOrdered, hrightOrdered⟩, trivial⟩
        intro lower hlower
        obtain rfl := Option.some.inj hlower
        omega

theorem ordered_ofLinks (first : Expr) (links : List (BinaryOp × Expr)) : (ofLinks first links).Ordered := by
  have hfold (chain : Chain) (h : chain.Ordered) :
      (links.foldl (fun chain link => chain.push link.1 link.2) chain).Ordered := by
    induction links generalizing chain with
    | nil => exact h
    | cons link links ih => exact ih _ (ordered_push h)
  exact hfold (operand first) trivial

/-- What binds more tightly than the root all goes to the right side. -/
theorem foldl_push_operation {left right : Chain} {op : BinaryOp} {links : List (BinaryOp × Expr)}
    (h : ∀ link ∈ links, op.precedence < link.1.precedence) :
    links.foldl (fun chain link => chain.push link.1 link.2) (operation left op right) =
      operation left op (links.foldl (fun chain link => chain.push link.1 link.2) right) := by
  induction links generalizing right with
  | nil => rfl
  | cons link links ih =>
      rw [List.forall_mem_cons] at h
      rw [List.foldl_cons, List.foldl_cons, push, if_pos h.1, ih h.2]

theorem Ordered.lt_precedence {chain : Chain} {bound : Nat} (h : chain.Ordered)
    (hroot : ∀ root ∈ chain.root?, bound < root.precedence) :
    ∀ link ∈ chain.links, bound < link.1.precedence := by
  induction chain generalizing bound with
  | operand => simp [links]
  | operation left op right ihLeft ihRight =>
      obtain ⟨hleft, hright, hleftOrdered, hrightOrdered⟩ := h
      have hop : bound < op.precedence := hroot op rfl
      intro link hlink
      rw [links, List.mem_append, List.mem_cons] at hlink
      rcases hlink with hlink | rfl | hlink
      · exact ihLeft hleftOrdered (fun root hmem => Nat.lt_of_lt_of_le hop (hleft root hmem)) link hlink
      · exact hop
      · exact ihRight hrightOrdered (fun root hmem => Nat.lt_trans hop (hright root hmem)) link hlink

/-- A well ordered chain is the one that is read from its operands and operators. -/
theorem Ordered.ofLinks_eq {chain : Chain} (h : chain.Ordered) : ofLinks chain.first chain.links = chain := by
  induction chain with
  | operand => rfl
  | operation left op right ihLeft ihRight =>
      obtain ⟨hleft, hright, hleftOrdered, hrightOrdered⟩ := h
      have hpush : left.push op right.first = operation left op (operand right.first) := by
        cases left with
        | operand => rfl
        | operation _ edge _ =>
            have := hleft edge rfl
            rw [push, if_neg (by omega)]
      have hlinks := hrightOrdered.lt_precedence hright
      have := ihLeft hleftOrdered
      rw [ofLinks] at this
      rw [ofLinks, first, links, List.foldl_append, this, List.foldl_cons, hpush, foldl_push_operation hlinks]
      exact congrArg _ (ihRight hrightOrdered)

end Questionnaire.Chain
