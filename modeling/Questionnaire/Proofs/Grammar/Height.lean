import Questionnaire.Proofs.Grammar.Acceptance
import Questionnaire.Proofs.Walk.Height

/-! How high the limits let a document grow. A bracket in an expression leaves room for two levels of it, an
assignment and a question about answers, and every operator and member that is charged for adds one. A block adds two
levels as well, its own and that of its rule or action. Whatever the two limits are, they bound every expression and
the nodes that a walk of the document has open at once. -/

namespace Questionnaire

mutual

/-- The number of nodes on the longest way down an expression. A name that is given a value or asked about is one. -/
def Expr.height : Expr → Nat
  | .binary left _ right _ => max left.height right.height + 1
  | .assign _ value _ => max 1 value.height + 1
  | .symbol _ _ => 1
  | .property container _ _ => container.height + 1
  | .number _ _ => 1
  | .string _ _ => 1
  | .boolean _ _ => 1
  | .undefined _ => 1
  | .answered _ _ answers _ => max 1 (Expr.heights answers) + 1

/-- The greatest of the heights. -/
def Expr.heights : List Expr → Nat
  | [] => 0
  | expr :: exprs => max expr.height (Expr.heights exprs)

end

namespace Expr

theorem height_pos (expr : Expr) : 1 ≤ expr.height := by
  cases expr <;> simp [height]

@[simp] theorem height_withSpan (expr : Expr) (span : Span) : (expr.withSpan span).height = expr.height := by
  cases expr <;> rfl

@[simp] theorem height_constant (word : String) (span : Span) : (Rule.constant word span).height = 1 := by
  unfold Rule.constant
  split
  · rfl
  · split <;> rfl

theorem height_withMembers (container : Expr) (names : List Token) :
    (container.withMembers names).height = container.height + names.length := by
  induction names generalizing container with
  | nil => rfl
  | cons name names ih =>
      have hstep : container.withMembers (name :: names) =
          (Expr.property container name ⟨container.span.first, name⟩).withMembers names := rfl
      rw [hstep, ih, height, List.length_cons]
      omega

/-- No expression is higher than a level allows that leaves as much for all of them together as they charge. -/
theorem heights_le_charges {exprs : List Expr} {level : Nat} (h : ∀ expr ∈ exprs, expr.height ≤ level + expr.charge) :
    heights exprs ≤ level + charges exprs := by
  induction exprs with
  | nil => exact Nat.zero_le _
  | cons expr exprs ih =>
      rw [List.forall_mem_cons] at h
      have hrest := ih h.2
      have hfirst := h.1
      rw [heights, charges]
      omega

end Expr

theorem Expr.charge_le_charges {expr : Expr} {exprs : List Expr} (h : expr ∈ exprs) :
    expr.charge ≤ charges exprs := by
  induction exprs with
  | nil => cases h
  | cons first exprs ih =>
      rw [charges]
      rcases List.mem_cons.mp h with rfl | h
      · exact Nat.le_add_right _ _
      · exact Nat.le_add_left_of_le (ih h)

theorem Chain.height_le {chain : Chain} {level : Nat} (hfirst : chain.first.height ≤ level + chain.first.charge)
    (hlinks : ∀ link ∈ chain.links, link.2.height ≤ level + link.2.charge) :
    chain.expr.height ≤ level + chain.expr.charge := by
  induction chain with
  | operand expr => exact hfirst
  | operation left op right ihLeft ihRight =>
      rw [links, List.forall_mem_append, List.forall_mem_cons] at hlinks
      have hleft := ihLeft hfirst hlinks.1
      have hright := ihRight hlinks.2.1 hlinks.2.2
      rw [expr, Expr.height, Expr.charge]
      omega

/-- What is derived within so many brackets is no higher than they and its charges allow. -/
def Phrase.Low (room : Nat) : Phrase → Prop
  | .operand expr => expr.height ≤ 2 * room + 1 + expr.charge
  | .links operators => ∀ link ∈ operators, link.2.height ≤ 2 * room + 1 + link.2.charge
  | .operation expr => expr.height ≤ 2 * room + 1 + expr.charge
  | .expression expr => expr.height ≤ 2 * room + 2 + expr.charge
  | .further answers => ∀ answer ∈ answers, answer.height ≤ 2 * room + 2 + answer.charge
  | .arguments answers => 1 ≤ room ∧ ∀ answer ∈ answers, answer.height ≤ 2 * room + answer.charge

theorem Derives.low {room : Nat} {phrase : Phrase} {tokens : List Token} (h : Derives room phrase tokens) :
    phrase.Low room := by
  -- brackets of arguments add a level of their own and one for an assignment in them; those of a group add no node
  induction h with
  | number => exact Nat.le_add_left _ _
  | string => exact Nat.le_add_left _ _
  | constant =>
      simp only [Phrase.Low, Expr.height_constant]
      omega
  | reference =>
      simp only [Phrase.Low, Expr.height_withMembers, Expr.charge_withMembers, Expr.height, Expr.charge]
      omega
  | group _ _ _ _ _ ih =>
      simp only [Phrase.Low] at ih
      simp only [Phrase.Low, Expr.height_withMembers, Expr.charge_withMembers, Expr.height_withSpan,
        Expr.charge_withSpan]
      omega
  | answered _ _ _ _ _ _ ih =>
      obtain ⟨hroom, hanswers⟩ := ih
      have := Expr.heights_le_charges hanswers
      simp only [Phrase.Low, Expr.height, Expr.charge]
      omega
  | noLinks => exact fun _ hlink => absurd hlink List.not_mem_nil
  | link _ _ _ _ ihExpr ihLinks => exact List.forall_mem_cons.mpr ⟨ihExpr, ihLinks⟩
  | operation _ _ _ ihFirst ihLinks => exact Chain.height_le ihFirst ihLinks
  | bare _ ih =>
      simp only [Phrase.Low] at ih ⊢
      omega
  | @assign room _ _ _ value _ _ _ _ _ _ ihValue =>
      have := value.height_pos
      simp only [Phrase.Low] at ihValue
      simp only [Phrase.Low, Expr.height, Expr.charge]
      omega
  | noFurther => exact fun _ hanswer => absurd hanswer List.not_mem_nil
  | further _ _ _ ihAnswer ihAnswers => exact List.forall_mem_cons.mpr ⟨ihAnswer, ihAnswers⟩
  | noArguments => exact ⟨Nat.le_add_left _ _, fun _ hanswer => absurd hanswer List.not_mem_nil⟩
  | arguments _ _ _ _ ihAnswer ihAnswers => exact ⟨Nat.le_add_left _ _, List.forall_mem_cons.mpr ⟨ihAnswer, ihAnswers⟩⟩

namespace Outline

mutual

theorem height_ofExpr (expr : Expr) : (ofExpr expr).height = expr.height := by
  cases expr with
  | binary left op right span =>
      rw [ofExpr, height, Expr.height, heights, heights, heights, height_ofExpr left, height_ofExpr right, Nat.max_zero]
  | assign target value span =>
      rw [ofExpr, height, Expr.height, heights, heights, heights, height_ofExpr value, Nat.max_zero]
      rfl
  | property container name span =>
      rw [ofExpr, height, Expr.height, heights, heights, height_ofExpr container, Nat.max_zero]
  | answered question mode answers span =>
      rw [ofExpr, height, Expr.height, heights, heights_ofExprs answers]
      rfl
  | symbol name span => rfl
  | number value span => rfl
  | string value span => rfl
  | boolean value span => rfl
  | undefined span => rfl

theorem heights_ofExprs (exprs : List Expr) : heights (ofExprs exprs) = Expr.heights exprs := by
  cases exprs with
  | nil => rfl
  | cons expr exprs => rw [ofExprs, heights, Expr.heights, height_ofExpr expr, heights_ofExprs exprs]

end

/-- Bounds on the height of an outline and on that of the expressions in it. -/
structure Bounded (tall wide : Nat) (tree : Outline) : Prop where
  height : tree.height ≤ tall
  expressions : ∀ inner ∈ tree.subtrees, ∀ expr, inner.node = .expression expr → expr.height ≤ wide

variable {tall taller wide : Nat} {tree : Outline} {node : Node} {children : List Outline}

theorem Bounded.mono (h : tree.Bounded tall wide) (htall : tall ≤ taller) : tree.Bounded taller wide :=
  ⟨Nat.le_trans h.height htall, h.expressions⟩

/-- A node that is no expression adds one level. -/
theorem bounded_mk (hnode : ∀ expr, node ≠ .expression expr) (h : ∀ child ∈ children, child.Bounded tall wide) :
    (mk node children).Bounded (tall + 1) wide := by
  constructor
  · rw [Outline.height]
    exact Nat.succ_le_succ (heights_le fun child hchild => (h child hchild).height)
  · intro inner hinner expr hexpr
    rcases mem_subtrees_mk.mp hinner with rfl | ⟨child, hchild, hinner⟩
    · exact absurd hexpr (hnode expr)
    · exact (h child hchild).expressions inner hinner expr hexpr

theorem bounded_ofExpr {expr : Expr} (h : expr.height ≤ tall) (hwide : expr.height ≤ wide) :
    (ofExpr expr).Bounded tall wide := by
  constructor
  · rwa [height_ofExpr]
  · intro tree htree inner hinner
    obtain ⟨found, rfl⟩ := exists_of_mem_subtrees expr htree
    have hheight := height_le_of_mem_subtrees _ htree
    rw [height_ofExpr, height_ofExpr] at hheight
    rw [node_ofExpr, Node.expression.injEq] at hinner
    subst hinner
    omega

theorem bounded_ofName (token : Token) (htall : 1 ≤ tall) (hwide : 1 ≤ wide) : (ofName token).Bounded tall wide :=
  show (ofExpr (.symbol token (.single token))).Bounded tall wide from bounded_ofExpr htall hwide

end Outline

section

open Outline

variable {room budget wide : Nat} {tokens : List Token}

theorem Simple.bounded {statement : SimpleStatement} (h : Simple room budget statement tokens)
    (hwide : 2 * room + budget + 2 ≤ wide) : (ofSimple statement).Bounded (2 * room + budget + 3) wide := by
  cases h with
  | mk hexpr hcharge =>
      have hlow := hexpr.low
      rw [Phrase.Low] at hlow
      refine bounded_mk (by simp) fun child hchild => ?_
      rw [List.mem_singleton] at hchild
      subst hchild
      exact bounded_ofExpr (by dsimp only; omega) (by dsimp only; omega)

theorem Condition.bounded {statement : SimpleStatement} (h : Condition room budget statement tokens)
    (hwide : 2 * room + budget + 2 ≤ wide) : (ofSimple statement).Bounded (2 * room + budget + 3) wide := by
  cases h with
  | mk _ hstatement => exact hstatement.bounded hwide

theorem Series.bounded {α : Type} {holds : α → List Token → Prop} {outlineOf : α → Outline} {values : List α}
    {tall : Nat} (h : Series holds values tokens)
    (hvalue : ∀ value tokens, holds value tokens → (outlineOf value).Bounded tall wide) :
    ∀ child ∈ values.map outlineOf, child.Bounded tall wide := by
  induction h with
  | nil => simp
  | cons hholds _ ih => exact List.forall_mem_cons.mpr ⟨hvalue _ _ hholds, ih⟩

/-- A statement stands no higher than the brackets still to be opened and the charges allow. -/
def Clause.Bounded (room budget wide : Nat) : Clause → Prop
  | .statement value => (ofStatement value).Bounded (2 * room + budget + 4) wide
  | .bare value => (ofStatement value).Bounded (2 * room + budget + 4) wide
  | .statements values => ∀ value ∈ values, (ofStatement value).Bounded (2 * room + budget + 4) wide
  | .block value => (ofBlock value).Bounded (2 * room + budget + 3) wide

theorem Logic.bounded {clause : Clause} (h : Logic .operation budget room clause tokens)
    (hwide : 2 * room + budget + 2 ≤ wide) : clause.Bounded room budget wide := by
  induction h with
  | simple hstatement => exact (hstatement.bounded hwide).mono (by omega)
  | rule _ _ _ _ hconditions _ ih =>
      refine bounded_mk (by simp) (List.forall_mem_append.mpr ⟨?_, List.forall_mem_singleton.mpr (ih hwide)⟩)
      exact hconditions.bounded fun _ _ hcondition => hcondition.bounded hwide
  | action _ _ _ ih => exact bounded_mk (by simp) (List.forall_mem_singleton.mpr (ih hwide))
  | conditionSet _ _ _ _ hconditions _ =>
      exact bounded_mk (by simp) (hconditions.bounded fun _ _ hcondition => hcondition.bounded hwide)
  | declaration => exact bounded_mk (by simp) (by simp)
  | @definition _ _ _ _ value _ _ _ _ hvalue hcharge =>
      have hlow := hvalue.low
      rw [Phrase.Low] at hlow
      refine bounded_mk (by simp) (List.forall_mem_singleton.mpr ?_)
      exact bounded_ofExpr (by omega) (by omega)
  | @command _ _ arguments _ _ _ _ _ harguments hcharge =>
      obtain ⟨-, hlow⟩ := harguments.low
      refine bounded_mk (by simp) (List.forall_mem_map.mpr fun argument hargument => ?_)
      have hheight := hlow argument hargument
      have hshare := Expr.charge_le_charges hargument
      exact bounded_ofExpr (by omega) (by omega)
  | evaluate =>
      exact bounded_mk (by simp) (List.forall_mem_singleton.mpr (bounded_ofName _ (by omega) (by omega)))
  | perform =>
      exact bounded_mk (by simp) (List.forall_mem_singleton.mpr (bounded_ofName _ (by omega) (by omega)))
  | unended _ ih => exact ih hwide
  | ended _ _ ih => exact ih hwide
  | noStatements => exact fun _ hvalue => absurd hvalue List.not_mem_nil
  | statements _ _ ih ihRest => exact List.forall_mem_cons.mpr ⟨ih hwide, ihRest hwide⟩
  | @block room _ _ statements _ _ _ _ ih =>
      have hstatements := ih (by omega)
      rw [Clause.Bounded, ofBlock, ofStatements_eq_map]
      exact (bounded_mk (by simp) (List.forall_mem_map.mpr hstatements)).mono (by omega)

theorem Embedded.bounded {statement : SimpleStatement} (h : Embedded budget room statement tokens)
    (hwide : 2 * room + budget + 2 ≤ wide) : (ofSimple statement).Bounded (2 * room + budget + 1) wide := by
  cases h with
  | mk _ hexpr hcharge _ =>
      have hlow := hexpr.low
      rw [Phrase.Low] at hlow
      refine bounded_mk (by simp) (List.forall_mem_singleton.mpr ?_)
      exact bounded_ofExpr (by dsimp only; omega) (by dsimp only; omega)

theorem Attributed.bounded {one : Attribute} (h : Attributed room budget one tokens)
    (hwide : 2 * room + budget + 2 ≤ wide) : (ofAttribute one).Bounded (2 * room + budget + 2) wide := by
  cases h with
  | custom => exact bounded_mk (by simp) (by simp)
  | bare => exact bounded_mk (by simp) (by simp)
  | valued _ _ hvalue =>
      cases hvalue with
      | string => exact bounded_mk (by simp) (by simp)
      | embedded hstatement =>
          exact bounded_mk (by simp) (List.forall_mem_singleton.mpr (hstatement.bounded hwide))

theorem Attributes.bounded {left right : TokenKind} {attributes : List Attribute}
    (h : Attributes room budget left right attributes tokens) (hwide : 2 * room + budget + 2 ≤ wide) :
    ∀ child ∈ attributes.map ofAttribute, child.Bounded (2 * room + budget + 2) wide := by
  cases h with
  | mk _ hattributes _ => exact hattributes.bounded fun _ _ hone => hone.bounded hwide

theorem Textual.bounded {part : TextPart} (h : Textual room budget part tokens)
    (hwide : 2 * room + budget + 2 ≤ wide) : (ofText part).Bounded (2 * room + budget + 2) wide := by
  cases h with
  | text => exact bounded_mk (by simp) (by simp)
  | embedded hstatement => exact (hstatement.bounded hwide).mono (by omega)

theorem Optional.bounded {option : AnswerOption} (h : Optional room budget option tokens)
    (hwide : 2 * room + budget + 2 ≤ wide) :
    (ofRow option).Bounded (2 * room + budget + 3) wide ∧ (ofColumn option).Bounded (2 * room + budget + 3) wide := by
  cases h with
  | mk hattributes htexts =>
      have htextual := htexts.bounded fun _ _ hpart => hpart.bounded hwide
      have hchildren := List.forall_mem_append.mpr ⟨htextual, hattributes.bounded hwide⟩
      exact ⟨bounded_mk (by simp) hchildren, bounded_mk (by simp) hchildren⟩

theorem Component.Derived.bounded {next : Token} {component : Component}
    (h : Component.Derived .operation room budget next component tokens) (hwide : 2 * room + budget + 2 ≤ wide) :
    (ofComponent component).Bounded (2 * room + budget + 5) wide := by
  cases h with
  | heading hattributes _ => exact (bounded_mk (by simp) (hattributes.bounded hwide)).mono (by omega)
  | question hattributes _ htexts hoptions =>
      refine bounded_mk (by simp) fun child hchild => ?_
      have hrows := hoptions.bounded fun _ _ hoption => (hoption.bounded hwide).1
      have hcolumns := hoptions.bounded fun _ _ hoption => (hoption.bounded hwide).2
      simp only [List.mem_append, or_assoc] at hchild
      rcases hchild with hchild | hchild | hchild | hchild
      · exact (htexts.bounded (fun _ _ hpart => hpart.bounded hwide) child hchild).mono (by omega)
      · exact (hattributes.bounded hwide child hchild).mono (by omega)
      · exact (hrows child ((List.filter_sublist.map _).subset hchild)).mono (by omega)
      · exact (hcolumns child ((List.filter_sublist.map _).subset hchild)).mono (by omega)
  | interlude _ hstatements _ =>
      exact bounded_mk (by simp) (List.forall_mem_map.mpr (hstatements.bounded hwide))

theorem Components.bounded {components : List Component} (h : Components .operation room budget components tokens)
    (hwide : 2 * room + budget + 2 ≤ wide) :
    ∀ component ∈ components, (ofComponent component).Bounded (2 * room + budget + 5) wide := by
  induction h with
  | nil => simp
  | cons hcomponent _ ih => exact List.forall_mem_cons.mpr ⟨hcomponent.bounded hwide, ih⟩

end

namespace Document

theorem Derived.height_le {document : Document} {room budget : Nat} {tokens : List Token}
    (h : document.Derived .operation room budget tokens) : document.height ≤ 2 * room + budget + 5 :=
  Outline.heights_le (List.forall_mem_map.mpr fun component hcomponent =>
    (Components.bounded h (Nat.le_refl _) component hcomponent).height)

theorem Derived.expression_height_le {document : Document} {room budget : Nat} {tokens : List Token} {expr : Expr}
    (h : document.Derived .operation room budget tokens) (hexpr : .expression expr ∈ document.nodes) :
    expr.height ≤ 2 * room + budget + 2 := by
  obtain ⟨tree, htree, hnode⟩ := mem_nodes.mp hexpr
  obtain ⟨component, hcomponent, htree⟩ := mem_subtrees.mp htree
  exact (Components.bounded h (Nat.le_refl _) component hcomponent).expressions tree htree expr hnode

end Document

namespace Parser

variable {limits : Limits} {items : List Item} {document : Document} {after : Parser}

theorem exists_derived (h : (Parser.ofItems limits items).parse = (.ok document, after)) :
    ∃ tokens, document.Derived .operation limits.maxNesting limits.maxExpressionDepth tokens := by
  rw [Parser.parse] at h
  split at h
  next found q hfound =>
    cases h
    obtain ⟨first, rest, tokens, -, -, hderived⟩ := Rule.document_eq_ok.mp hfound
    exact ⟨_, hderived⟩
  next => cases h

/-- Whatever tokens a document is read from, the limits it is read under bound the nodes that a walk of it has open at
once, and the height of every expression in it. -/
theorem parse_height_le (h : (Parser.ofItems limits items).parse = (.ok document, after)) :
    (∃ most, document.walk .gauge ⟨0, 0⟩ = .ok () ⟨0, most⟩ ∧
      most ≤ 2 * limits.maxNesting + limits.maxExpressionDepth + 5) ∧
    ∀ expr, .expression expr ∈ document.nodes →
      expr.height ≤ 2 * limits.maxNesting + limits.maxExpressionDepth + 2 := by
  obtain ⟨tokens, hderived⟩ := exists_derived h
  exact ⟨⟨_, document.walk_gauge, hderived.height_le⟩, fun _ => hderived.expression_height_le⟩

/-- The bounds are reached where an answer is asked about in a condition, and a value is given to a name in both
places. -/
theorem parse_height_le_condition :
    let opening : Token := ⟨.logicOpen, "<%", ⟨1, 1⟩⟩
    let first : Token := ⟨.keyword, "rule", ⟨1, 4⟩⟩
    let name : Token := ⟨.identifier, "r", ⟨1, 9⟩⟩
    let target : Token := ⟨.identifier, "a", ⟨1, 14⟩⟩
    let answer : Token := ⟨.keyword, "answer", ⟨1, 18⟩⟩
    let question : Token := ⟨.identifier, "q", ⟨1, 29⟩⟩
    let inner : Token := ⟨.identifier, "b", ⟨1, 36⟩⟩
    let value : Token := ⟨.identifier, "c", ⟨1, 40⟩⟩
    let last : Token := ⟨.punctuation, ")", ⟨1, 41⟩⟩
    let left : Token := ⟨.punctuation, "\x7b", ⟨1, 43⟩⟩
    let right : Token := ⟨.punctuation, "\x7d", ⟨1, 45⟩⟩
    let closing : Token := ⟨.logicClose, "%>", ⟨1, 47⟩⟩
    let finish : Token := ⟨.endOfInput, "", ⟨1, 49⟩⟩
    let tokens := [opening, first, name, ⟨.punctuation, ":", ⟨1, 10⟩⟩, ⟨.punctuation, "|", ⟨1, 12⟩⟩, target,
      ⟨.operator, "=", ⟨1, 16⟩⟩, answer, ⟨.keyword, "for", ⟨1, 25⟩⟩, question, ⟨.callKeyword, "has", ⟨1, 31⟩⟩,
      ⟨.punctuation, "(", ⟨1, 35⟩⟩, inner, ⟨.operator, "=", ⟨1, 38⟩⟩, value, last, left, right, closing, finish]
    let given : Expr := .assign inner (.symbol value (.single value)) ⟨inner, value⟩
    let condition : SimpleStatement :=
      ⟨.assign target (.answered question .has [given] ⟨answer, last⟩) ⟨target, last⟩, ⟨target, last⟩⟩
    let document : Document :=
      ⟨[.interlude ⟨[.rule name [condition] ⟨[], ⟨left, right⟩⟩ ⟨first, right⟩], ⟨opening, closing⟩⟩]⟩
    let after : Parser := ⟨⟨1, 0⟩, [], finish, closing, true, 0, 0⟩
    (Parser.ofItems ⟨1, 0⟩ (tokens.map .ok)).parse = (.ok document, after) ∧
      (∃ most, document.walk .gauge ⟨0, 0⟩ = .ok () ⟨0, most⟩ ∧ most ≤ 2 * 1 + 0 + 5) ∧
      (∀ expr, .expression expr ∈ document.nodes → expr.height ≤ 2 * 1 + 0 + 2) ∧
      document.walk .gauge ⟨0, 0⟩ = .ok () ⟨0, 2 * 1 + 0 + 5⟩ ∧ condition.expression.height = 2 * 1 + 0 + 2 := by
  intro opening first name target answer question inner value last left right closing finish tokens given condition
    document after
  have hparse : (Parser.ofItems ⟨1, 0⟩ (tokens.map .ok)).parse = (.ok document, after) := by cbv
  have hheight := parse_height_le hparse
  exact ⟨hparse, hheight.1, hheight.2, document.walk_gauge, rfl⟩

end Parser

end Questionnaire
