import Questionnaire.Proofs.Grammar.Acceptance
import Questionnaire.Proofs.Walk.Recording
import Questionnaire.Proofs.Walk.Spans

/-! Spans of what is read. Each production fits its node to the tokens it covers, and lays its parts on successive
stretches of them. A group gives its span to the expression in it, whose parts stay where they were; only a name keeps
the bounds it had. -/

namespace Questionnaire

open Outline

variable {tokens rest members : List Token} {expr : Expr}

theorem Span.fits_over (first : Token) (more : List Token) : (Span.over first more).Fits (first :: more) where
  first := rfl
  last := by rw [List.getLast?_cons, Span.over, List.getLastD_eq_getLast?]

theorem Series.row {α : Type} {holds : α → List Token → Prop} {outlineOf : α → Outline} {values : List α}
    (h : Series holds values tokens) (hinc : Increasing tokens)
    (hvalue : ∀ value stretch, Increasing stretch → holds value stretch → (outlineOf value).Laid stretch) :
    Row tokens (values.map outlineOf) := by
  induction h with
  | nil => exact .nil
  | cons hholds _ ih =>
      obtain ⟨hfirst, hothers, -⟩ := hinc.append
      exact .append hinc (.single (hvalue _ _ hfirst hholds)) (ih hothers)

theorem Series.split {α β : Type} {holds : α → List β → Prop} {left right : List α} {whole : List β}
    (h : Series holds (left ++ right) whole) :
    ∃ before after, whole = before ++ after ∧ Series holds left before ∧ Series holds right after := by
  induction left generalizing whole with
  | nil => exact ⟨[], whole, rfl, .nil, h⟩
  | cons value left ih =>
      cases h with
      | @cons _ _ stretch rest hvalue hrest =>
          obtain ⟨before, after, rfl, hbefore, hafter⟩ := ih hrest
          exact ⟨stretch ++ before, after, (List.append_assoc _ _ _).symm, .cons hvalue hbefore, hafter⟩

namespace Expr

/-- An expression that fits the tokens, with all in it laid on them. -/
structure Laid (tokens : List Token) (expr : Expr) : Prop where
  fits : expr.span.Fits tokens
  outline : (ofExpr expr).Laid tokens

def isName : Expr → Bool
  | .symbol .. => true
  | _ => false

/-- A name keeps narrower bounds, and every other expression is bounded by its span. -/
theorem laid_of_children (hinc : Increasing tokens) (hfits : expr.span.Fits tokens) (hname : expr.isName = false)
    (hchildren : Row tokens (ofExpr expr).children) : expr.Laid tokens where
  fits := hfits
  outline := by
    cases expr with
    | symbol => cases hname
    | _ => exact hchildren.laid_mk hinc hfits id

theorem laid_leaf {token : Token} (hspan : expr.span = .single token) (hname : expr.isName = false)
    (hchildren : (ofExpr expr).children = []) : expr.Laid [token] := by
  refine laid_of_children (List.pairwise_singleton _ _) ?_ hname ?_
  · rw [hspan]
    exact Span.fits_single token
  · rw [hchildren]
    exact .nil

theorem ofExpr_eq_mk (expr : Expr) : ofExpr expr = .mk (.expression expr) (ofExpr expr).children := by
  cases expr <;> rfl

theorem Laid.children (h : expr.Laid tokens) : Row tokens (ofExpr expr).children := by
  have houtline := h.outline
  rw [ofExpr_eq_mk] at houtline
  exact ⟨fun child => houtline.child, houtline.root.inOrder⟩

/-- The parts of a group stay where they were laid. -/
theorem Laid.withSpan {span : Span} {more : List Token} (h : expr.Laid tokens) (hsub : tokens ⊆ more)
    (hinc : Increasing more) (hfits : span.Fits more) : (expr.withSpan span).Laid more := by
  have hspan : (expr.withSpan span).span.Fits more := by rwa [span_withSpan]
  have hchildren := h.children.mono hsub
  cases expr with
  | symbol name inner => exact ⟨hspan, laid_symbol span (hsub h.outline.root.first_mem)⟩
  | _ => exact laid_of_children hinc hspan rfl hchildren

theorem Laid.property {container : Expr} {dot name : Token} (h : container.Laid tokens)
    (hinc : Increasing (tokens ++ [dot, name])) :
    (Expr.property container name ⟨container.span.first, name⟩).Laid (tokens ++ [dot, name]) := by
  have hfits : (⟨container.span.first, name⟩ : Span).Fits (tokens ++ ([dot] ++ [name])) :=
    h.fits.join (Span.fits_single name) [dot]
  exact laid_of_children hinc hfits rfl (.single (h.outline.mono (List.subset_append_left _ _)))

theorem Laid.withMembers {container : Expr} {names : List Token} (h : container.Laid tokens)
    (hmembers : Series Member names members) (hinc : Increasing (tokens ++ members)) :
    (container.withMembers names).Laid (tokens ++ members) := by
  induction hmembers generalizing container tokens with
  | nil => rwa [List.append_nil]
  | cons hmember _ ih =>
      cases hmember with
      | mk =>
          rw [← List.append_assoc] at hinc ⊢
          exact ih (h.property hinc.append.1) hinc

end Expr

/-- A link covers its operator and what its operand is laid on. -/
def LinkLaid (link : BinaryOp × Expr) (tokens : List Token) : Prop :=
  ∃ token operand, tokens = token :: operand ∧ link.2.Laid operand

theorem Chain.laid {chain : Chain} (hfirst : chain.first.Laid tokens) (hlinks : Series LinkLaid chain.links rest)
    (hinc : Increasing (tokens ++ rest)) : chain.expr.Laid (tokens ++ rest) := by
  induction chain generalizing tokens rest with
  | operand expr =>
      cases hlinks
      rwa [List.append_nil]
  | operation left op right ihLeft ihRight =>
      obtain ⟨before, after, rfl, hbefore, hafter⟩ := Series.split hlinks
      cases hafter with
      | @cons _ _ stretch after hlink hafter =>
          obtain ⟨token, operand, rfl, hoperand⟩ := hlink
          have hsplit : tokens ++ (before ++ (token :: operand ++ after)) =
              (tokens ++ before) ++ ([token] ++ (operand ++ after)) := by simp
          rw [hsplit] at hinc ⊢
          obtain ⟨hincLeft, hincRight, -⟩ := hinc.append
          have hleft := ihLeft hfirst hbefore hincLeft
          have hright := ihRight hoperand hafter hincRight.append.2.1
          refine Expr.laid_of_children hinc (hleft.fits.join hright.fits [token]) rfl ?_
          exact .append hinc (.single hleft.outline)
            ((Row.single hright.outline).mono (List.subset_append_right _ _))

/-- What a phrase is laid on. -/
def Phrase.Laid (tokens : List Token) : Phrase → Prop
  | .operand expr => expr.Laid tokens
  | .links operators => Series LinkLaid operators tokens
  | .operation expr => expr.Laid tokens
  | .expression expr => expr.Laid tokens
  | .further answers => Row tokens (ofExprs answers)
  | .arguments answers => Row tokens (ofExprs answers)

theorem Expr.laid_constant (token : Token) : (Rule.constant token.text (.single token)).Laid [token] := by
  unfold Rule.constant
  split
  · exact laid_leaf rfl rfl rfl
  · split <;> exact laid_leaf rfl rfl rfl

theorem Derives.laid {room : Nat} {phrase : Phrase} (h : Derives room phrase tokens) (hinc : Increasing tokens) :
    phrase.Laid tokens := by
  induction h with
  | number => exact Expr.laid_leaf rfl rfl rfl
  | string => exact Expr.laid_leaf rfl rfl rfl
  | constant => exact Expr.laid_constant _
  | @reference room name names members _ hmembers =>
      have hname : (Expr.symbol name (.single name)).Laid [name] :=
        ⟨Span.fits_single name, laid_ofName (List.mem_singleton_self name)⟩
      exact hname.withMembers hmembers hinc
  | @group room opening closing expr tokens names members _ _ _ hmembers _ ih =>
      have hsplit : opening :: (tokens ++ closing :: members) = (opening :: (tokens ++ [closing])) ++ members := by simp
      rw [hsplit] at hinc ⊢
      have hgroup := hinc.append.1
      have hexpr := ih (hgroup.sublist ((List.sublist_append_left _ _).cons _))
      have hsub : tokens ⊆ opening :: (tokens ++ [closing]) := ((List.sublist_append_left _ _).cons _).subset
      exact (hexpr.withSpan hsub hgroup (Span.fits_between _ _ _)).withMembers hmembers hinc
  | @answered room first filler question call mode answers tokens _ _ _ _ _ _ ih =>
      have hinner := hinc.of_cons.of_cons.of_cons.of_cons
      have hrow : Row ([first, filler, question, call] ++ tokens) (ofName question :: ofExprs answers) :=
        .append hinc (.single (laid_ofName (by simp))) (ih hinner)
      exact Expr.laid_of_children hinc (Span.fits_over _ _) rfl hrow
  | noLinks => exact .nil
  | @link room token op expr links tokens rest _ _ _ _ ihExpr ihLinks =>
      obtain ⟨hoperand, hrest, -⟩ := hinc.of_cons.append
      have hexpr : expr.Laid tokens := ihExpr hoperand
      show Series LinkLaid ((op, expr) :: links) (token :: tokens ++ rest)
      exact .cons ⟨token, tokens, rfl, hexpr⟩ (ihLinks hrest)
  | operation _ _ _ ihFirst ihLinks =>
      obtain ⟨hfirst, hlinks, -⟩ := hinc.append
      exact Chain.laid (ihFirst hfirst) (ihLinks hlinks) hinc
  | bare _ ih => exact ih hinc
  | @assign room target equals span value tokens rest _ _ _ ihTarget ihValue =>
      obtain ⟨htarget, hvalue, -⟩ := hinc.append
      have hleft := ihTarget htarget
      have hright := ihValue (hvalue.of_cons)
      refine Expr.laid_of_children hinc (hleft.fits.join hright.fits [equals]) rfl ?_
      exact .append hinc (.single (laid_ofName hleft.outline.root.first_mem))
        ((Row.single hright.outline).mono (List.subset_cons_self _ _))
  | noFurther => exact .nil
  | @further room comma answer answers tokens rest _ _ _ ihAnswer ihAnswers =>
      obtain ⟨hfirst, hrest, -⟩ := hinc.of_cons.append
      have hrow : Row (tokens ++ rest) (ofExprs (answer :: answers)) :=
        .append hinc.of_cons (.single (ihAnswer hfirst).outline) (ihAnswers hrest)
      exact hrow.mono (List.subset_cons_self _ _)
  | noArguments => exact .nil
  | @arguments room opening closing answer answers tokens rest _ _ _ _ ihAnswer ihAnswers =>
      obtain ⟨hfirst, hothers, -⟩ := hinc.of_cons.append
      have hrow : Row (tokens ++ (rest ++ [closing])) (ofExprs (answer :: answers)) :=
        .append hinc.of_cons (.single (ihAnswer hfirst).outline)
          ((ihAnswers hothers.append.1).mono (List.subset_append_left _ _))
      exact hrow.mono (List.subset_cons_self _ _)

section

variable {room budget : Nat}

theorem Simple.laid {statement : SimpleStatement} (h : Simple room budget statement tokens) (hinc : Increasing tokens) :
    (ofSimple statement).Laid tokens := by
  cases h with
  | mk hexpr _ => exact (Row.single (hexpr.laid hinc).outline).laid_mk hinc (Span.fits_over _ _) id

theorem Condition.laid {statement : SimpleStatement} (h : Condition room budget statement tokens)
    (hinc : Increasing tokens) : (ofSimple statement).Laid tokens := by
  cases h with
  | mk _ hstatement => exact (hstatement.laid hinc.of_cons).mono (List.subset_cons_self _ _)

/-- What a clause is laid on. -/
def Clause.Laid (tokens : List Token) : Clause → Prop
  | .statement value => (ofStatement value).Laid tokens
  | .bare value => (ofStatement value).Laid tokens
  | .statements values => Row tokens (ofStatements values)
  | .block value => (ofBlock value).Laid tokens

theorem Logic.laid {clause : Clause} (h : Logic .operation budget room clause tokens) (hinc : Increasing tokens) :
    clause.Laid tokens := by
  induction h with
  | simple hstatement => exact hstatement.laid hinc
  | @rule room first name colon conditions action tokens rest _ _ _ _ hconditions _ ih =>
      have hinner := hinc.of_cons.of_cons.of_cons
      obtain ⟨hfirst, hrest, -⟩ := hinner.append
      have hrow : Row (tokens ++ rest) (conditions.map ofSimple ++ [ofBlock action]) :=
        .append hinner (hconditions.row hfirst fun _ _ hinc h => Condition.laid h hinc) (.single (ih hrest))
      exact (hrow.mono (List.subset_append_right [first, name, colon] _)).laid_mk hinc (Span.fits_over _ _) id
  | @action room first name action tokens _ _ _ ih =>
      have hrow : Row tokens [ofBlock action] := .single (ih hinc.of_cons.of_cons)
      exact (hrow.mono (List.subset_append_right [first, name] _)).laid_mk hinc (Span.fits_over _ _) id
  | @conditionSet room first name colon last conditions tokens _ _ _ _ hconditions _ =>
      have hrow := hconditions.row hinc.of_cons.of_cons.of_cons.append.1 fun _ _ hinc h => Condition.laid h hinc
      refine ((hrow.between colon last).mono (List.subset_append_right [first, name] _)).laid_mk hinc ?_ id
      exact Span.fits_between first (name :: colon :: tokens) last
  | declaration => exact Row.nil.laid_mk hinc (Span.fits_between _ [] _) id
  | @definition room first name equals value tokens _ _ _ hvalue _ =>
      have hrow : Row tokens [ofExpr value] := .single (hvalue.laid hinc.of_cons.of_cons.of_cons).outline
      exact (hrow.mono (List.subset_append_right [first, name, equals] _)).laid_mk hinc (Span.fits_over _ _) id
  | @command room name arguments tokens _ _ _ _ harguments _ =>
      have hrow : Row tokens (ofExprs arguments) := harguments.laid hinc.of_cons
      rw [ofExprs_eq_map] at hrow
      exact (hrow.mono (List.subset_cons_self _ _)).laid_mk hinc (Span.fits_over _ _) id
  | evaluate => exact (Row.single (laid_ofName (by simp))).laid_mk hinc (Span.fits_between _ [] _) id
  | perform => exact (Row.single (laid_ofName (by simp))).laid_mk hinc (Span.fits_between _ [] _) id
  | unended _ ih => exact ih hinc
  | ended _ _ ih => exact (ih hinc.append.1).mono (List.subset_append_left _ _)
  | noStatements => exact .nil
  | statements _ _ ih ihRest =>
      obtain ⟨hfirst, hrest, -⟩ := hinc.append
      exact .append hinc (.single (ih hfirst)) (ihRest hrest)
  | @block room opening closing statements tokens _ _ _ ih =>
      have hrow : Row tokens (ofStatements statements) := ih hinc.of_cons.append.1
      exact (hrow.between opening closing).laid_mk hinc (Span.fits_between _ _ _) id

theorem Embedded.laid {statement : SimpleStatement} (h : Embedded budget room statement tokens)
    (hinc : Increasing tokens) : (ofSimple statement).Laid tokens := by
  cases h with
  | @mk below opening closing expr tokens _ hexpr _ _ =>
      have hrow : Row tokens [ofExpr expr] := .single (hexpr.laid hinc.of_cons.append.1).outline
      exact (hrow.between opening closing).laid_mk hinc (Span.fits_between _ _ _) id

theorem Attributed.laid {one : Attribute} (h : Attributed room budget one tokens) (hinc : Increasing tokens) :
    (ofAttribute one).Laid tokens := by
  cases h with
  | custom => exact Row.nil.laid_mk hinc (Span.fits_single _) id
  | bare => exact Row.nil.laid_mk hinc (Span.fits_single _) id
  | @valued name equals value tokens _ _ hvalue =>
      cases hvalue with
      | string => exact Row.nil.laid_mk hinc (Span.fits_over _ _) id
      | embedded hstatement =>
          have hrow := Row.single (hstatement.laid hinc.of_cons.of_cons)
          exact (hrow.mono (List.subset_append_right [name, equals] _)).laid_mk hinc (Span.fits_over _ _) id

theorem Attributes.row {left right : TokenKind} {attributes : List Attribute}
    (h : Attributes room budget left right attributes tokens) (hinc : Increasing tokens) :
    Row tokens (attributes.map ofAttribute) := by
  cases h with
  | @mk opening closing attributes tokens _ hattributes _ =>
      have hrow := hattributes.row hinc.of_cons.append.1 fun _ _ hinc h => Attributed.laid h hinc
      exact hrow.between opening closing

theorem Textual.laid {part : TextPart} (h : Textual room budget part tokens) (hinc : Increasing tokens) :
    (ofText part).Laid tokens := by
  cases h with
  | text => exact Row.nil.laid_mk hinc (Span.fits_single _) id
  | embedded hstatement => exact hstatement.laid hinc

theorem Optional.laid {option : AnswerOption} (h : Optional room budget option tokens) (hinc : Increasing tokens) :
    (ofRow option).Laid tokens ∧ (ofColumn option).Laid tokens := by
  cases h with
  | @mk first attributes texts tokens rest hattributes htexts =>
      rw [← List.cons_append] at hinc ⊢
      obtain ⟨hleft, hright, -⟩ := hinc.append
      have hrow : Row (first :: tokens ++ rest) (attributes.map ofAttribute ++ texts.map ofText) :=
        .append hinc (hattributes.row hleft)
          (htexts.row hright fun _ _ hinc h => Textual.laid h hinc)
      exact ⟨hrow.laid_of_arranged hinc (Span.fits_over _ _) List.perm_append_comm hrow.ordered,
        hrow.laid_of_arranged hinc (Span.fits_over _ _) List.perm_append_comm hrow.ordered⟩

/-- An option as the question has it. -/
def AnswerOption.outline (option : AnswerOption) : Outline :=
  if option.isColumn then ofColumn option else ofRow option

theorem Optional.laid_outline {option : AnswerOption} (h : Optional room budget option tokens)
    (hinc : Increasing tokens) : option.outline.Laid tokens := by
  unfold AnswerOption.outline
  split
  · exact (h.laid hinc).2
  · exact (h.laid hinc).1

theorem map_ofRow (options : List AnswerOption) :
    (options.filter fun option => !option.isColumn).map ofRow =
      (options.filter fun option => !option.isColumn).map AnswerOption.outline :=
  List.map_congr_left fun option hoption => by simp_all [AnswerOption.outline]

theorem map_ofColumn (options : List AnswerOption) :
    (options.filter fun option => option.isColumn).map ofColumn =
      (options.filter fun option => option.isColumn).map AnswerOption.outline :=
  List.map_congr_left fun option hoption => by simp_all [AnswerOption.outline]

theorem Component.Derived.laid {next : Token} {component : Component}
    (h : Component.Derived .operation room budget next component tokens) (hinc : Increasing tokens) :
    (ofComponent component).Laid tokens := by
  cases h with
  | heading hattributes _ => exact (hattributes.row hinc).laid_mk hinc (Span.fits_over _ _) id
  | @question first attributes texts options tokens textual optional hattributes _ htexts hoptions =>
      rw [← List.cons_append] at hinc ⊢
      obtain ⟨hleft, hright, -⟩ := hinc.append
      obtain ⟨htextual, hoptional, -⟩ := hright.append
      have htail : Row (textual ++ optional) (texts.map ofText ++ options.map AnswerOption.outline) :=
        .append hright (htexts.row htextual fun _ _ hinc h => Textual.laid h hinc)
          (hoptions.row hoptional fun _ _ hinc h => Optional.laid_outline h hinc)
      have hrow : Row (first :: tokens ++ (textual ++ optional))
          (attributes.map ofAttribute ++ (texts.map ofText ++ options.map AnswerOption.outline)) :=
        .append hinc (hattributes.row hleft) htail
      have hrows := List.filter_sublist (l := options) (p := fun option => !option.isColumn)
      have hcolumns := List.filter_sublist (l := options) (p := fun option => option.isColumn)
      refine hrow.laid_of_arranged hinc (Span.fits_over _ _) ?_ ⟨?_, ?_⟩
      · dsimp only
        rw [map_ofRow, map_ofColumn, List.append_assoc, ← List.append_assoc (attributes.map _), ← List.map_append]
        refine List.perm_append_comm.append (List.Perm.map _ ?_)
        exact List.perm_append_comm.trans (List.filter_append_perm _ options)
      · dsimp only
        rw [map_ofRow, List.append_assoc]
        exact hrow.ordered.sublist (((hrows.map _).append_left _).append_left _)
      · dsimp only
        rw [map_ofColumn, List.append_assoc]
        exact hrow.ordered.sublist (((hcolumns.map _).append_left _).append_left _)
  | @interlude opening closing statements tokens _ hstatements _ =>
      have hrow : Row tokens (ofStatements statements) := hstatements.laid hinc.of_cons.append.1
      rw [ofStatements_eq_map] at hrow
      exact (hrow.between opening closing).laid_mk hinc (Span.fits_between _ _ _) id

theorem Components.row {components : List Component} (h : Components .operation room budget components tokens)
    (hinc : Increasing tokens.dropLast) : Row tokens.dropLast (components.map ofComponent) := by
  induction h with
  | nil => exact .nil
  | @cons component components next tokens rest hcomponent _ ih =>
      -- the next token, at last the end of the input, is no token of this component
      rw [List.dropLast_append_of_ne_nil (by simp)] at hinc ⊢
      obtain ⟨hleft, hright, -⟩ := hinc.append
      exact .append hinc (.single (hcomponent.laid hleft)) (ih hright)

end

namespace Document

variable {limits : Limits} {source : String} {document : Document}

/-- Spans of a document are well formed, whatever the limits it was read under. Its nodes are bounded by tokens of the
source and its components follow one another. A walk of an interlude never goes back to an earlier place. -/
theorem parse_wellSpanned (h : Document.parse limits source = .ok document) :
    ∃ tokens, tokenize source = .ok tokens ∧ Increasing tokens.dropLast ∧
      document.walk .recorder [] = .ok () (document.subtrees.map Outline.node) ∧
      (∀ tree ∈ document.subtrees, tree.WellSpanned tokens.dropLast) ∧
      document.outlines.Pairwise Outline.Precedes ∧
      ∀ index interlude, document.components[index]? = some (.interlude interlude) →
        ∃ entered, document.walkComponent .recorder index [] = .ok () entered ∧
          (entered.map Node.position).Pairwise fun left right => left.notAfter right = true := by
  obtain ⟨tokens, htokens, hderived⟩ := parse_eq_ok_iff_derived.mp h
  have hinc := increasing_of_itemsOf (tokenize_eq_ok_iff.mp htokens)
  have hrow := Components.row hderived hinc
  refine ⟨tokens, htokens, hinc, ?_, ?_, hrow.ordered, ?_⟩
  · rw [walk_recorder, map_node_subtrees]
  · intro tree htree
    obtain ⟨component, hcomponent, htree⟩ := mem_subtrees.mp htree
    exact hrow.laid _ (List.mem_map_of_mem hcomponent) tree htree
  · intro index interlude hinterlude
    refine ⟨_, walkComponent_recorder hinterlude, ?_⟩
    have hlaid : (ofComponent (.interlude interlude)).Laid tokens.dropLast :=
      hrow.laid _ (List.mem_map_of_mem (List.mem_of_getElem? hinterlude))
    have hlogical : Logical fun node => node.rearranges = false :=
      ⟨fun _ => rfl, fun _ => rfl, fun _ => rfl, fun _ => rfl⟩
    have hplain := hlogical.ofInterlude interlude rfl
    rw [List.map_map]
    exact hlaid.positions_sorted hplain

/-- A column that is written before a row, and a name in brackets. -/
theorem parse_wellSpanned_column :
    let opening : Token := ⟨.questionOpen, "<<", ⟨1, 1⟩⟩
    let owner : Token := ⟨.identifier, "q", ⟨1, 3⟩⟩
    let first : Token := ⟨.textRun, "T", ⟨1, 6⟩⟩
    let columnOpening : Token := ⟨.optionOpen, "[", ⟨1, 7⟩⟩
    let mark : Token := ⟨.attributeKeyword, "col", ⟨1, 8⟩⟩
    let second : Token := ⟨.textRun, "U", ⟨1, 13⟩⟩
    let rowOpening : Token := ⟨.optionOpen, "[", ⟨1, 14⟩⟩
    let rowClosing : Token := ⟨.optionClose, "]", ⟨1, 15⟩⟩
    let logic : Token := ⟨.logicOpen, "<%", ⟨1, 16⟩⟩
    let left : Token := ⟨.punctuation, "(", ⟨1, 18⟩⟩
    let target : Token := ⟨.identifier, "c", ⟨1, 19⟩⟩
    let value : Token := ⟨.identifier, "d", ⟨1, 22⟩⟩
    let finish : Token := ⟨.logicClose, "%>", ⟨1, 23⟩⟩
    let tokens := [opening, owner, ⟨.questionClose, ">>", ⟨1, 4⟩⟩, first, columnOpening, mark,
      ⟨.optionClose, "]", ⟨1, 12⟩⟩, second, rowOpening, rowClosing, logic, left, target,
      ⟨.punctuation, ")", ⟨1, 20⟩⟩, ⟨.operator, "=", ⟨1, 21⟩⟩, value, finish, ⟨.endOfInput, "", ⟨1, 25⟩⟩]
    let column : AnswerOption := ⟨[.text second], [⟨"col", none, false, .single mark⟩], ⟨columnOpening, second⟩⟩
    let row : AnswerOption := ⟨[], [], ⟨rowOpening, rowClosing⟩⟩
    let given : Expr := .assign target (.symbol value (.single value)) ⟨left, value⟩
    let document : Document :=
      ⟨[.question ⟨[.text first], [⟨"q", none, true, .single owner⟩], [row], [column], ⟨opening, rowClosing⟩⟩,
        .interlude ⟨[.simple ⟨given, ⟨left, value⟩⟩], ⟨logic, finish⟩⟩]⟩
    Document.parse ⟨1, 0⟩ "<<q>>T[@col]U[]<%(c)=d%>" = .ok document ∧
      (∀ tree ∈ document.subtrees, tree.WellSpanned tokens.dropLast) ∧
      ∃ entered, document.walkComponent .recorder 1 [] = .ok () entered ∧
        (entered.map Node.position).Pairwise fun left right => left.notAfter right = true := by
  intro opening owner first columnOpening mark second rowOpening rowClosing logic left target value finish tokens column
    row given document
  have hparse : Document.parse ⟨1, 0⟩ "<<q>>T[@col]U[]<%(c)=d%>" = .ok document := by cbv
  have hknown : tokenize "<<q>>T[@col]U[]<%(c)=d%>" = .ok tokens := by cbv
  obtain ⟨found, hfound, -, -, hspans, -, hwalk⟩ := parse_wellSpanned hparse
  obtain rfl : tokens = found := Except.ok.inj (hknown.symm.trans hfound)
  exact ⟨hparse, hspans, hwalk 1 _ rfl⟩

end Document

end Questionnaire
