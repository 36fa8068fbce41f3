import Mathlib.Data.List.TakeWhile
import Questionnaire.Proofs.Grammar.Expression
import Questionnaire.Proofs.Grammar.Precedence

/-! Precedence climbing. A row of operands is read to its end, and made into a tree either by letting the right edge
grow, operand by operand, or by climbing: what binds more tightly than an operator is read by a climb of its own as its
right side. Both come to the same tree, the only well ordered one over the row. -/

namespace Questionnaire

/-- The operator between two operands that the token is. -/
def Token.binaryOp? (token : Token) : Option BinaryOp :=
  if token.kind = .operator then BinaryOp.ofLexeme? token.text else none

theorem BinaryOp.precedence_pos (op : BinaryOp) : 0 < op.precedence := by cases op <;> decide

namespace Chain

/-- What binds no more tightly than the root goes above all of the chain. -/
theorem push_of_le {left : Chain} {op : BinaryOp} {expr : Expr}
    (h : ∀ root ∈ left.root?, op.precedence ≤ root.precedence) :
    left.push op expr = operation left op (operand expr) := by
  cases left with
  | operand => rfl
  | operation _ edge _ => rw [push, if_neg (Nat.not_lt_of_le (h edge rfl))]

end Chain

namespace Rule

open Questionnaire.Parser (Takes)

/-- Operators, each at its charge, with the operands after them, read one after another between two parsers. -/
inductive Row (inner : Rule Expr) : Parser → List (BinaryOp × Expr) → Parser → Prop where
  | nil {p : Parser} : Row inner p [] p
  | cons {p p₁ q r : Parser} {op : BinaryOp} {expr : Expr} {links : List (BinaryOp × Expr)}
      (hop : p.current.binaryOp? = some op) (htakes : p.Takes [p.current] 1 p₁)
      (hoperand : operand inner p₁ = .ok expr q) (hrest : Row inner q links r) : Row inner p ((op, expr) :: links) r

/-- Precedence climbing from what has been read: as long as the operator ahead binds more tightly than the bound, it
takes as its right side what a climb from the next operand makes, with its own precedence as the bound. -/
inductive Climbs (inner : Rule Expr) : Nat → Chain → Parser → Chain → Parser → Prop where
  | done {bound : Nat} {left : Chain} {p : Parser} (h : ∀ op ∈ p.current.binaryOp?, op.precedence ≤ bound) :
      Climbs inner bound left p left p
  | step {bound : Nat} {left right chain : Chain} {p p₁ p₂ p₃ q : Parser} {op : BinaryOp} {expr : Expr}
      (hop : p.current.binaryOp? = some op) (htight : bound < op.precedence) (htakes : p.Takes [p.current] 1 p₁)
      (hoperand : operand inner p₁ = .ok expr p₂)
      (hright : Climbs inner op.precedence (.operand expr) p₂ right p₃)
      (hrest : Climbs inner bound (.operation left op right) p₃ chain q) : Climbs inner bound left p chain q

variable {inner : Rule Expr} {p q : Parser} {links : List (BinaryOp × Expr)} {room : Nat}

theorem linkOffer_of_binaryOp? (inner : Rule Expr) {token : Token} {op : BinaryOp} (h : token.binaryOp? = some op) :
    token.kind = .operator ∧ linkOffer inner token = some do
      charge
      shift
      return (op, ← operand inner) := by
  unfold Token.binaryOp? at h
  split at h
  next hkind => exact ⟨hkind, by rw [linkOffer, if_pos hkind, h, Option.map_some]⟩
  next => cases h

theorem linkOffer_eq_none_of_binaryOp? {token : Token} (h : token.binaryOp? = none) : linkOffer inner token = none := by
  unfold Token.binaryOp? at h
  unfold linkOffer
  split at h
  next hkind => rw [if_pos hkind, h, Option.map_none]
  next hkind => rw [if_neg hkind]

theorem Row.loops (h : Row inner p links q) (hends : q.current.binaryOp? = none) :
    Loops (linkOffer inner) p links q := by
  induction h with
  | nil => exact .done (linkOffer_eq_none_of_binaryOp? hends)
  | @cons p p₁ q r op expr links hop htakes hoperand hrest ih =>
      obtain ⟨hkind, hoffer⟩ := linkOffer_of_binaryOp? inner hop
      have hpaid : p.Takes [p.current] (1 + 0) p₁ := htakes
      obtain ⟨p₂, hcurrent, hcharged, hpassed⟩ := hpaid.uncharge
      rw [hcurrent] at hkind hpassed
      refine .round hoffer (charge_bind_eq_ok.mpr ⟨p₂, hcharged, ?_⟩) (ih hends)
      refine (shift_bind_eq_ok (by simp [hkind])).mpr ⟨p₁, hpassed, ?_⟩
      exact bind_eq_ok.mpr ⟨expr, q, hoperand, rfl⟩

/-- Whether the operator of the link binds more tightly than the bound. -/
def tighter (bound : Nat) (link : BinaryOp × Expr) : Bool := decide (bound < link.1.precedence)

/-- What a climb reads of a row, to the first operator that does not bind more tightly than its bound, includes all
that a climb with a higher bound reads. -/
theorem takeWhile_tighter_append {bound higher : Nat} (h : bound ≤ higher) (links : List (BinaryOp × Expr)) :
    links.takeWhile (tighter bound) =
        links.takeWhile (tighter higher) ++ (links.dropWhile (tighter higher)).takeWhile (tighter bound) ∧
      links.dropWhile (tighter bound) = (links.dropWhile (tighter higher)).dropWhile (tighter bound) := by
  have hall : ∀ link ∈ links.takeWhile (tighter higher), tighter bound link = true := by
    intro link hlink
    have htight := List.all_eq_true.mp List.all_takeWhile link hlink
    exact decide_eq_true (Nat.lt_of_le_of_lt h (of_decide_eq_true htight))
  constructor
  · rw [← List.takeWhile_append_of_pos hall, List.takeWhile_append_dropWhile]
  · have hdrop : (links.takeWhile (tighter higher) ++ links.dropWhile (tighter higher)).dropWhile (tighter bound) =
        (links.dropWhile (tighter higher)).dropWhile (tighter bound) := List.dropWhile_append_of_pos hall
    rwa [List.takeWhile_append_dropWhile] at hdrop

theorem head?_dropWhile_tighter {bound : Nat} {link : BinaryOp × Expr}
    (h : link ∈ (links.dropWhile (tighter bound)).head?) : link.1.precedence ≤ bound := by
  have hhead := List.head?_dropWhile_not (tighter bound) links
  rw [h] at hhead
  exact Nat.le_of_not_lt (of_decide_eq_false hhead)

/-- A climb takes from a row what binds more tightly than its bound, if what follows binds no more tightly than what
has been read. -/
theorem Row.climbs (left : Chain) (bound : Nat) (h : Row inner p links q) (hends : q.current.binaryOp? = none)
    (hleft : ∀ root ∈ left.root?, ∀ link ∈ links.head?, link.1.precedence ≤ root.precedence) :
    ∃ middle, Row inner middle (links.dropWhile (tighter bound)) q ∧
      Climbs inner bound left p ((links.takeWhile (tighter bound)).foldl
        (fun chain link => chain.push link.1 link.2) left) middle := by
  induction hlength : links.length using Nat.strongRecOn generalizing p links left bound with
  | ind length ih =>
      cases h with
      | nil => exact ⟨q, .nil, .done (by simp [hends])⟩
      | @cons _ p₁ p₂ _ op expr rest hop htakes hoperand hrest =>
          by_cases htight : bound < op.precedence
          · have hlink : tighter bound (op, expr) = true := decide_eq_true htight
            -- the right side is climbed first, and all of it then stands to the left of what remains
            obtain ⟨p₃, hremains, hright⟩ :=
              ih rest.length (by simp [← hlength]) (.operand expr) op.precedence hrest nofun rfl
            let right := Chain.ofLinks expr (rest.takeWhile (tighter op.precedence))
            have hfewer : (rest.dropWhile (tighter op.precedence)).length < length := by
              rw [← hlength, List.length_cons]
              exact Nat.lt_succ_of_le (List.dropWhile_suffix _).length_le
            have hroot : ∀ root ∈ (Chain.operation left op right).root?,
                ∀ link ∈ (rest.dropWhile (tighter op.precedence)).head?, link.1.precedence ≤ root.precedence := by
              intro root hroot link hlink
              cases hroot
              exact head?_dropWhile_tighter hlink
            obtain ⟨middle, hrow, hclimbs⟩ := ih _ hfewer (.operation left op right) bound hremains hroot rfl
            obtain ⟨htake, hdrop⟩ := takeWhile_tighter_append (Nat.le_of_lt htight) rest
            have hwithin : ∀ link ∈ rest.takeWhile (tighter op.precedence), op.precedence < link.1.precedence :=
              fun link hmem => of_decide_eq_true (List.all_eq_true.mp List.all_takeWhile link hmem)
            refine ⟨middle, ?_, ?_⟩
            · rw [List.dropWhile_cons_of_pos hlink, hdrop]
              exact hrow
            · rw [List.takeWhile_cons_of_pos hlink, List.foldl_cons, htake, List.foldl_append,
                Chain.push_of_le fun root hmem => hleft root hmem (op, expr) rfl, Chain.foldl_push_operation hwithin]
              exact .step hop htight htakes hoperand hright hclimbs
          · have hlink : tighter bound (op, expr) = false := decide_eq_false htight
            rw [List.dropWhile_cons_of_neg (by simp [hlink]), List.takeWhile_cons_of_neg (by simp [hlink])]
            refine ⟨p, .cons hop htakes hoperand hrest, .done fun other hother => ?_⟩
            cases hop.symm.trans hother
            exact Nat.le_of_not_lt htight

/-- A row after an operand, as far as the token behind it joins no other operand, is read to its end, and becomes the
one well ordered tree over it, which is also what a climb from its first operand makes. -/
theorem operation_of_row {first : Expr} {p₀ : Parser} (hroom : p.depth + room = p.limits.maxNesting)
    (hfirst : operand (expression room) p = .ok first p₀) (hrow : Row (expression room) p₀ links q)
    (hends : q.current.binaryOp? = none) :
    ∃ chain : Chain, operation (expression room) p = .ok chain.expr q ∧
      Climbs (expression room) 0 (.operand first) p₀ chain q ∧
      (chain.first = first ∧ chain.links = links ∧ chain.Ordered) ∧
      ∀ other : Chain, other.first = first → other.links = links → other.Ordered → other = chain := by
  have hinner := soundWithin_expression room p.limits.maxExpressionDepth
  obtain ⟨_, htakes, -⟩ := sound_operand hinner _ _ _ ⟨hroom, rfl⟩ hfirst
  have hlinks : Rule.links (expression room) p₀ = .ok links q :=
    ((soundRounds_link hinner).repeatWhile_eq_ok (htakes.hasRoom ⟨hroom, rfl⟩)).mpr (hrow.loops hends)
  refine ⟨Chain.ofLinks first links, ?_, ?_, ?_, ?_⟩
  · exact bind_eq_ok.mpr ⟨first, p₀, hfirst, bind_eq_ok.mpr ⟨links, q, hlinks, rfl⟩⟩
  · obtain ⟨middle, hremains, hclimbs⟩ := Row.climbs (.operand first) 0 hrow hends nofun
    have hall : ∀ link ∈ links, tighter 0 link = true := fun link _ => decide_eq_true link.1.precedence_pos
    rw [List.dropWhile_eq_nil_iff.mpr hall] at hremains
    rw [List.takeWhile_eq_self_iff.mpr hall] at hclimbs
    cases hremains
    exact hclimbs
  · exact ⟨Chain.first_ofLinks first links, Chain.links_ofLinks first links, Chain.ordered_ofLinks first links⟩
  · rintro other rfl rfl hordered
    exact hordered.ofLinks_eq.symm

/-- A sum of a group and a product with what is asked about an answer, which is compared with a name. -/
theorem operation_of_row_sum :
    let token (kind : TokenKind) (text : String) (column : Nat) : Token := ⟨kind, text, ⟨1, column⟩⟩
    let tokens : List Token :=
      [token .punctuation "(" 1, token .identifier "a" 2, token .punctuation ")" 3, token .operator "+" 5,
        token .identifier "b" 7, token .operator "*" 9, token .keyword "answer" 11, token .keyword "for" 18,
        token .identifier "q" 22, token .callKeyword "has" 24, token .punctuation "(" 28, token .punctuation ")" 29,
        token .operator "<" 31, token .identifier "c" 33, token .logicClose "%>" 35]
    let parser (taken links : Nat) : Parser :=
      ⟨⟨1, 3⟩, (tokens.drop (taken + 1)).map .ok, tokens[taken]!, tokens[taken - 1]!, true, 0, links⟩
    let symbol (index : Nat) : Expr := .symbol tokens[index]! (.single tokens[index]!)
    let grouped : Expr := (symbol 1).withSpan ⟨tokens[0]!, tokens[2]!⟩
    let answered : Expr := .answered tokens[8]! .has [] ⟨tokens[6]!, tokens[11]!⟩
    let links : List (BinaryOp × Expr) := [(.add, symbol 4), (.multiply, answered), (.less, symbol 13)]
    let chain : Chain := .operation
      (.operation (.operand grouped) .add (.operation (.operand (symbol 4)) .multiply (.operand answered)))
      .less (.operand (symbol 13))
    0 + 1 = (parser 0 0).limits.maxNesting ∧ operand (expression 1) (parser 0 0) = .ok grouped (parser 3 0) ∧
      Row (expression 1) (parser 3 0) links (parser 14 3) ∧ (parser 14 3).current.binaryOp? = none ∧
      operation (expression 1) (parser 0 0) = .ok chain.expr (parser 14 3) := by
  intro token tokens parser symbol grouped answered links chain
  have hgrouped : operand (expression 1) (parser 0 0) = .ok grouped (parser 3 0) := rfl
  have hsum : (parser 3 0).Takes [tokens[3]!] 1 (parser 4 1) := ⟨rfl, rfl, rfl, fun _ => by decide, rfl, rfl, rfl⟩
  have hproduct : (parser 5 1).Takes [tokens[5]!] 1 (parser 6 2) := ⟨rfl, rfl, rfl, fun _ => by decide, rfl, rfl, rfl⟩
  have hless : (parser 12 2).Takes [tokens[12]!] 1 (parser 13 3) := ⟨rfl, rfl, rfl, fun _ => by decide, rfl, rfl, rfl⟩
  have hrow : Row (expression 1) (parser 3 0) links (parser 14 3) :=
    .cons rfl hsum rfl (.cons rfl hproduct rfl (.cons rfl hless rfl .nil))
  obtain ⟨found, hread, -, -, hunique⟩ := operation_of_row rfl hgrouped hrow rfl
  obtain rfl := hunique chain rfl rfl (by simp [chain, Chain.Ordered, Chain.root?, BinaryOp.precedence])
  exact ⟨rfl, hgrouped, hrow, rfl, hread⟩

end Rule

end Questionnaire
