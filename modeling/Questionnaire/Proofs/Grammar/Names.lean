import Questionnaire.Proofs.Grammar.Acceptance
import Questionnaire.Proofs.Grammar.Enclosed
import Questionnaire.Proofs.Token.Spoken
import Questionnaire.Proofs.Walk.Each
import Questionnaire.Proofs.Walk.Events

/-! The words of a parsed document. Every name in its logic is a word without a meaning of its own, every command is
the word of a command, and every number is one that a numeral writes. The main statement says so of all nodes of a
document, whatever source it was read from. -/

namespace Questionnaire

/-- A word without a meaning of its own. -/
structure Token.IsName (token : Token) : Prop where
  kind : token.kind = .identifier
  shaped : Lexeme.IsWord token.text.toList
  free : Vocabulary.kindOf token.text = .identifier

/-- The word of a command, and neither that of an answer mode nor that of an invocation. -/
structure Token.IsCommand (token : Token) : Prop where
  kind : token.kind = .callKeyword
  shaped : Lexeme.IsWord token.text.toList
  call : Vocabulary.kindOf token.text = .callKeyword
  mode : AnswerMode.ofKeyword? token.text = none
  evaluate : token.text ≠ "evaluate"
  perform : token.text ≠ "do"

/-- The names, the command or the number that a node has of its own are such. -/
def Node.Sound : Node → Prop
  | .expression (.symbol name _) => name.IsName
  | .expression (.property _ name _) => name.IsName
  | .expression (.number value _) => value.Held ∧ value.Plain
  | .statement (.rule name _ _ _) => name.IsName
  | .statement (.action name _ _) => name.IsName
  | .statement (.conditionSet name _ _) => name.IsName
  | .statement (.declaration name _ _) => name.IsName
  | .statement (.command name _ _) => name.IsCommand
  | _ => True

def Expr.Sound (expr : Expr) : Prop := (Outline.ofExpr expr).Each Node.Sound

def Statement.Sound (statement : Statement) : Prop := (Outline.ofStatement statement).Each Node.Sound

def Block.Sound (block : Block) : Prop := (Outline.ofBlock block).Each Node.Sound

section

variable {holds : Node → Prop}

theorem Outline.each_ofName {token : Token} :
    (ofName token).Each holds ↔ holds (.expression (.symbol token (.single token))) := by
  rw [ofName, each_mk, Node.name, and_iff_left (List.forall_mem_nil _)]

/-- What holds throughout an outline holds throughout each one within it. -/
theorem Outline.Each.of_mem_subtrees {tree inner : Outline} (h : tree.Each holds) (hinner : inner ∈ tree.subtrees) :
    inner.Each holds := by
  induction tree using Outline.induction with
  | mk node children ih =>
      rcases mem_subtrees_mk.mp hinner with rfl | ⟨child, hchild, hinner⟩
      · exact h
      · exact ih child hchild ((each_mk.mp h).2 child hchild) hinner

theorem Node.node_outline (node : Node) : node.outline.node = node := by
  rw [outline_eq]
  rfl

/-- Every outline within that of a node is the outline of a node. -/
theorem Node.exists_of_mem_subtrees {tree : Outline} (node : Node) (h : tree ∈ node.outline.subtrees) :
    ∃ inner : Node, tree = inner.outline := by
  generalize houtline : node.outline = outline at h
  induction outline using Outline.induction generalizing node with
  | mk top children ih =>
      rcases Outline.mem_subtrees_mk.mp h with rfl | ⟨child, hchild, h⟩
      · exact ⟨node, houtline.symm⟩
      · rw [outline_eq, Outline.mk.injEq] at houtline
        obtain ⟨below, -, rfl⟩ := List.mem_map.mp (houtline.2 ▸ hchild)
        exact ih _ hchild below rfl h

end

open Outline (each_mk)

/-- What the parts of a sound expression are. -/
theorem Expr.sound_iff (expr : Expr) :
    expr.Sound ↔ match expr with
      | .binary left _ right _ => left.Sound ∧ right.Sound
      | .assign target value _ => target.IsName ∧ value.Sound
      | .symbol name _ => name.IsName
      | .property container name _ => name.IsName ∧ container.Sound
      | .number value _ => value.Held ∧ value.Plain
      | .answered question _ answers _ => question.IsName ∧ ∀ answer ∈ answers, answer.Sound
      | .string .. => True
      | .boolean .. => True
      | .undefined .. => True := by
  unfold Sound
  cases expr <;> simp [Outline.ofExpr, each_mk, Outline.each_ofName, Outline.ofExprs_eq_map, Node.Sound]

/-- What the parts of a sound statement are. -/
theorem Statement.sound_iff (statement : Statement) :
    statement.Sound ↔ match statement with
      | .simple statement => statement.expression.Sound
      | .rule name conditions block _ =>
        name.IsName ∧ (∀ condition ∈ conditions, condition.expression.Sound) ∧ block.Sound
      | .action name block _ => name.IsName ∧ block.Sound
      | .conditionSet name conditions _ => name.IsName ∧ ∀ condition ∈ conditions, condition.expression.Sound
      | .declaration name value _ => name.IsName ∧ ∀ expr ∈ value, expr.Sound
      | .command name arguments _ => name.IsCommand ∧ ∀ argument ∈ arguments, argument.Sound
      | .evaluate target _ => target.IsName
      | .perform target _ => target.IsName := by
  have hsimple (statement : SimpleStatement) :
      (Outline.ofSimple statement).Each Node.Sound ↔ statement.expression.Sound := by
    simp [Outline.ofSimple, each_mk, Node.Sound, Expr.Sound]
  unfold Sound
  cases statement <;>
    simp [Outline.ofStatement, each_mk, Outline.each_ofName, Node.Sound, hsimple, Expr.Sound, Block.Sound, or_imp,
      forall_and]

theorem Block.sound_iff (block : Block) : block.Sound ↔ ∀ statement ∈ block.statements, statement.Sound := by
  obtain ⟨statements, span⟩ := block
  simp [Sound, Statement.Sound, Block.statements, Outline.ofBlock, each_mk, Outline.ofStatements_eq_map, Node.Sound]

theorem Series.exists_stretch {α β : Type} {holds : α → List β → Prop} {values : List α} {whole : List β}
    (h : Series holds values whole) : ∀ value ∈ values, ∃ stretch, holds value stretch ∧ stretch <:+: whole := by
  induction h with
  | nil => simp
  | @cons value values stretch rest hvalue _ ih =>
      refine List.forall_mem_cons.mpr ⟨⟨stretch, hvalue, (List.prefix_append _ _).isInfix⟩, fun other hother => ?_⟩
      obtain ⟨more, hmore, hwithin⟩ := ih other hother
      exact ⟨more, hmore, hwithin.trans (List.suffix_append _ _).isInfix⟩

namespace Expr

theorem sound_withSpan (expr : Expr) (span : Span) : (expr.withSpan span).Sound ↔ expr.Sound := by
  rw [sound_iff, sound_iff expr]
  cases expr <;> rfl

theorem Sound.withMembers {container : Expr} {names : List Token} (h : container.Sound)
    (hnames : ∀ name ∈ names, name.IsName) : (container.withMembers names).Sound := by
  induction names generalizing container with
  | nil => exact h
  | cons name names ih =>
      obtain ⟨hname, hnames⟩ := List.forall_mem_cons.mp hnames
      exact ih ((sound_iff _).mpr ⟨hname, h⟩) hnames

theorem sound_constant (word : String) (span : Span) : (Rule.constant word span).Sound := by
  unfold Rule.constant
  split_ifs <;> exact (sound_iff _).mpr trivial

end Expr

theorem Chain.sound {chain : Chain} (hfirst : chain.first.Sound) (hlinks : ∀ link ∈ chain.links, link.2.Sound) :
    chain.expr.Sound := by
  induction chain with
  | operand => exact hfirst
  | operation left op right ihLeft ihRight =>
      rw [links, List.forall_mem_append, List.forall_mem_cons] at hlinks
      obtain ⟨hleft, hright, hmore⟩ := hlinks
      exact (Expr.sound_iff _).mpr ⟨ihLeft hfirst hleft, ihRight hright hmore⟩

def Phrase.Sound : Phrase → Prop
  | .operand expr => expr.Sound
  | .links operators => ∀ link ∈ operators, link.2.Sound
  | .operation expr => expr.Sound
  | .expression expr => expr.Sound
  | .further answers => ∀ answer ∈ answers, answer.Sound
  | .arguments answers => ∀ answer ∈ answers, answer.Sound

section

variable {room budget : Nat} {token : Token} {tokens : List Token}

theorem Token.Spoken.isName (h : token.Spoken) (hkind : token.kind = .identifier) : token.IsName := by
  obtain ⟨hshaped, hword⟩ := h.name hkind
  exact ⟨hkind, hshaped, hword.trans hkind⟩

theorem Series.isName_of_members {names : List Token} (h : Series Member names tokens)
    (hspoken : ∀ token ∈ tokens, token.Spoken) : ∀ name ∈ names, name.IsName := by
  intro name hname
  obtain ⟨_, ⟨hdot, hkind⟩, hwithin⟩ := h.exists_stretch name hname
  exact (hspoken name (hwithin.subset (by simp))).isName hkind

theorem Derives.sound {phrase : Phrase} (h : Derives room phrase tokens) (hspoken : ∀ token ∈ tokens, token.Spoken) :
    phrase.Sound := by
  induction h with
  | number hkind hvalue =>
      refine (Expr.sound_iff _).mpr ⟨Double.held_of_read? hvalue, ?_⟩
      exact (hspoken _ (List.mem_singleton_self _)).number hkind _ hvalue
  | string => exact (Expr.sound_iff _).mpr trivial
  | constant => exact Expr.sound_constant _ _
  | @reference _ name names members hkind hmembers =>
      obtain ⟨hname, hrest⟩ := List.forall_mem_cons.mp hspoken
      have hsymbol : (Expr.symbol name (.single name)).Sound := (Expr.sound_iff _).mpr (hname.isName hkind)
      exact hsymbol.withMembers (hmembers.isName_of_members hrest)
  | group _ _ _ hmembers _ ih =>
      simp only [List.forall_mem_cons, List.forall_mem_append] at hspoken
      obtain ⟨-, hinner, -, hrest⟩ := hspoken
      exact ((Expr.sound_withSpan _ _).mpr (ih hinner)).withMembers (hmembers.isName_of_members hrest)
  | answered _ _ hquestion _ _ _ ih =>
      simp only [List.forall_mem_cons] at hspoken
      obtain ⟨-, -, hname, -, hrest⟩ := hspoken
      exact (Expr.sound_iff _).mpr ⟨hname.isName hquestion, ih hrest⟩
  | noLinks => exact List.forall_mem_nil _
  | link _ _ _ _ ihExpr ihLinks =>
      simp only [List.forall_mem_cons, List.forall_mem_append] at hspoken
      exact List.forall_mem_cons.mpr ⟨ihExpr hspoken.2.1, ihLinks hspoken.2.2⟩
  | operation _ _ _ ihFirst ihLinks =>
      obtain ⟨hfirst, hlinks⟩ := List.forall_mem_append.mp hspoken
      exact Chain.sound (ihFirst hfirst) (ihLinks hlinks)
  | bare _ ih => exact ih hspoken
  | assign _ _ _ ihTarget ihValue =>
      simp only [List.forall_mem_cons, List.forall_mem_append] at hspoken
      obtain ⟨htarget, -, hvalue⟩ := hspoken
      exact (Expr.sound_iff _).mpr ⟨(Expr.sound_iff _).mp (ihTarget htarget), ihValue hvalue⟩
  | noFurther => exact List.forall_mem_nil _
  | further _ _ _ ihAnswer ihAnswers =>
      simp only [List.forall_mem_cons, List.forall_mem_append] at hspoken
      exact List.forall_mem_cons.mpr ⟨ihAnswer hspoken.2.1, ihAnswers hspoken.2.2⟩
  | noArguments => exact List.forall_mem_nil _
  | arguments _ _ _ _ ihAnswer ihAnswers =>
      simp only [List.forall_mem_cons, List.forall_mem_append] at hspoken
      exact List.forall_mem_cons.mpr ⟨ihAnswer hspoken.2.1, ihAnswers hspoken.2.2.1⟩

theorem Simple.sound {statement : SimpleStatement} (h : Simple room budget statement tokens)
    (hspoken : ∀ token ∈ tokens, token.Spoken) : statement.expression.Sound := by
  cases h with
  | mk hexpr => exact hexpr.sound hspoken

theorem Series.sound_of_conditions {conditions : List SimpleStatement}
    (h : Series (Condition room budget) conditions tokens) (hspoken : ∀ token ∈ tokens, token.Spoken) :
    ∀ condition ∈ conditions, condition.expression.Sound := by
  intro condition hcondition
  obtain ⟨_, ⟨hbar, hstatement⟩, hwithin⟩ := h.exists_stretch condition hcondition
  exact hstatement.sound fun token htoken => hspoken token (hwithin.subset (List.mem_cons_of_mem _ htoken))

def Clause.Sound : Clause → Prop
  | .statement value => value.Sound
  | .bare value => value.Sound
  | .statements values => ∀ value ∈ values, value.Sound
  | .block value => value.Sound

theorem Logic.sound {clause : Clause} (h : Logic .operation budget room clause tokens)
    (hspoken : ∀ token ∈ tokens, token.Spoken) : clause.Sound := by
  induction h with
  | simple hstatement => exact (Statement.sound_iff _).mpr (hstatement.sound hspoken)
  | rule _ hname _ _ hconditions _ ih =>
      simp only [List.forall_mem_cons, List.forall_mem_append] at hspoken
      obtain ⟨-, hfirst, -, hmiddle, hblock⟩ := hspoken
      exact (Statement.sound_iff _).mpr
        ⟨hfirst.isName hname, hconditions.sound_of_conditions hmiddle, ih hblock⟩
  | action _ hname _ ih =>
      simp only [List.forall_mem_cons] at hspoken
      exact (Statement.sound_iff _).mpr ⟨hspoken.2.1.isName hname, ih hspoken.2.2⟩
  | conditionSet _ hname _ _ hconditions _ =>
      simp only [List.forall_mem_cons, List.forall_mem_append] at hspoken
      obtain ⟨-, hfirst, -, hmiddle, -⟩ := hspoken
      exact (Statement.sound_iff _).mpr ⟨hfirst.isName hname, hconditions.sound_of_conditions hmiddle⟩
  | declaration _ hname =>
      simp only [List.forall_mem_cons] at hspoken
      exact (Statement.sound_iff _).mpr ⟨hspoken.2.1.isName hname, by simp⟩
  | definition _ hname _ hvalue _ =>
      simp only [List.forall_mem_cons] at hspoken
      obtain ⟨-, hfirst, -, hrest⟩ := hspoken
      have hsound : Expr.Sound _ := hvalue.sound hrest
      exact (Statement.sound_iff _).mpr ⟨hfirst.isName hname, by simpa using hsound⟩
  | command hname hevaluate hperform hmode harguments _ =>
      obtain ⟨hfirst, hrest⟩ := List.forall_mem_cons.mp hspoken
      have hcommand : Token.IsCommand _ :=
        ⟨hname, (hfirst.call hname).shaped, (hfirst.call hname).kind.trans hname, hmode, hevaluate, hperform⟩
      exact (Statement.sound_iff _).mpr ⟨hcommand, harguments.sound hrest⟩
  | evaluate _ htarget =>
      simp only [List.forall_mem_cons] at hspoken
      exact (Statement.sound_iff _).mpr (hspoken.2.1.isName htarget)
  | perform _ htarget =>
      simp only [List.forall_mem_cons] at hspoken
      exact (Statement.sound_iff _).mpr (hspoken.2.1.isName htarget)
  | unended _ ih => exact ih hspoken
  | ended _ _ ih => exact ih (List.forall_mem_append.mp hspoken).1
  | noStatements => exact List.forall_mem_nil _
  | statements _ _ ih ihStatements =>
      obtain ⟨hfirst, hrest⟩ := List.forall_mem_append.mp hspoken
      exact List.forall_mem_cons.mpr ⟨ih hfirst, ihStatements hrest⟩
  | block _ _ _ ih =>
      simp only [List.forall_mem_cons, List.forall_mem_append] at hspoken
      exact (Block.sound_iff _).mpr (ih hspoken.2.1)

theorem Embedded.sound {statement : SimpleStatement} (h : Embedded budget room statement tokens)
    (hspoken : SpokenWithin tokens) : (Outline.ofSimple statement).Each Node.Sound := by
  cases h with
  | @mk _ opening closing expr inner hopening hexpr =>
      have hinner : opening :: inner <:+: opening :: (inner ++ [closing]) := (List.prefix_append _ _).isInfix
      have hsound : expr.Sound := hexpr.sound (hspoken opening inner hinner (.inl hopening) hexpr.delimitersOf)
      exact each_mk.mpr ⟨trivial, List.forall_mem_singleton.mpr hsound⟩

theorem Attributed.sound {one : Attribute} (h : Attributed room budget one tokens) (hspoken : SpokenWithin tokens) :
    (Outline.ofAttribute one).Each Node.Sound := by
  cases h with
  | custom => exact each_mk.mpr ⟨trivial, List.forall_mem_nil _⟩
  | bare => exact each_mk.mpr ⟨trivial, List.forall_mem_nil _⟩
  | @valued name equals value tokens _ _ hvalue =>
      refine each_mk.mpr ⟨trivial, ?_⟩
      cases hvalue with
      | string => exact List.forall_mem_nil _
      | embedded hstatement =>
          have hwithin : tokens <:+: name :: equals :: tokens := (List.suffix_append [name, equals] tokens).isInfix
          exact List.forall_mem_singleton.mpr (hstatement.sound (hspoken.mono hwithin))

theorem Attributes.sound {left right : TokenKind} {attributes : List Attribute}
    (h : Attributes room budget left right attributes tokens) (hspoken : SpokenWithin tokens) :
    ∀ child ∈ attributes.map Outline.ofAttribute, child.Each Node.Sound := by
  cases h with
  | @mk opening closing _ inner _ hattributes =>
      refine List.forall_mem_map.mpr fun one hone => ?_
      obtain ⟨stretch, hattributed, hstretch⟩ := hattributes.exists_stretch one hone
      have hinner : inner <:+: opening :: (inner ++ [closing]) := ⟨[opening], [closing], rfl⟩
      exact hattributed.sound (hspoken.mono (hstretch.trans hinner))

theorem Textual.sound {part : TextPart} (h : Textual room budget part tokens) (hspoken : SpokenWithin tokens) :
    (Outline.ofText part).Each Node.Sound := by
  cases h with
  | text => exact each_mk.mpr ⟨trivial, List.forall_mem_nil _⟩
  | embedded hstatement => exact hstatement.sound hspoken

theorem Series.sound_of_texts {texts : List TextPart} (h : Series (Textual room budget) texts tokens)
    (hspoken : SpokenWithin tokens) : ∀ child ∈ texts.map Outline.ofText, child.Each Node.Sound := by
  refine List.forall_mem_map.mpr fun part hpart => ?_
  obtain ⟨stretch, htextual, hstretch⟩ := h.exists_stretch part hpart
  exact htextual.sound (hspoken.mono hstretch)

/-- What describes an option, which is the same for a row and for a column. -/
theorem Optional.sound {option : AnswerOption} (h : Optional room budget option tokens)
    (hspoken : SpokenWithin tokens) :
    ∀ child ∈ option.texts.map Outline.ofText ++ option.attributes.map Outline.ofAttribute,
      child.Each Node.Sound := by
  cases h with
  | @mk first attributes texts inner rest hattributes htexts =>
      have hleft : first :: inner <:+: first :: (inner ++ rest) := (List.prefix_append _ rest).isInfix
      have hright : rest <:+: first :: (inner ++ rest) := (List.suffix_append (first :: inner) rest).isInfix
      exact List.forall_mem_append.mpr
        ⟨htexts.sound_of_texts (hspoken.mono hright), hattributes.sound (hspoken.mono hleft)⟩

theorem Component.Derived.sound {next : Token} {component : Component}
    (h : Component.Derived .operation room budget next component tokens) (hspoken : SpokenWithin tokens) :
    (Outline.ofComponent component).Each Node.Sound := by
  cases h with
  | heading hattributes => exact each_mk.mpr ⟨trivial, hattributes.sound hspoken⟩
  | @question first attributes texts options inner textual optional hattributes _ htexts hoptions =>
      have hfirst : first :: inner <:+: first :: (inner ++ (textual ++ optional)) := (List.prefix_append _ _).isInfix
      have htextual : textual <:+: first :: (inner ++ (textual ++ optional)) := ⟨first :: inner, optional, by simp⟩
      have hoptional : optional <:+: first :: (inner ++ (textual ++ optional)) :=
        ⟨first :: (inner ++ textual), [], by simp⟩
      have hoption : ∀ option ∈ options,
          ∀ child ∈ option.texts.map Outline.ofText ++ option.attributes.map Outline.ofAttribute,
            child.Each Node.Sound := by
        intro option hoption
        obtain ⟨stretch, hderived, hstretch⟩ := hoptions.exists_stretch option hoption
        exact hderived.sound (hspoken.mono (hstretch.trans hoptional))
      rw [Outline.ofComponent, each_mk, List.forall_mem_append, List.forall_mem_append, List.forall_mem_append]
      refine ⟨trivial, ⟨⟨htexts.sound_of_texts (hspoken.mono htextual),
        hattributes.sound (hspoken.mono hfirst)⟩, ?_⟩, ?_⟩
      · exact List.forall_mem_map.mpr fun row hrow =>
          each_mk.mpr ⟨trivial, hoption row (List.mem_filter.mp hrow).1⟩
      · exact List.forall_mem_map.mpr fun column hcolumn =>
          each_mk.mpr ⟨trivial, hoption column (List.mem_filter.mp hcolumn).1⟩
  | @interlude opening closing statements inner hopening hstatements =>
      have hinner : opening :: inner <:+: opening :: (inner ++ [closing]) := (List.prefix_append _ _).isInfix
      have hlogic := hspoken opening inner hinner (.inr hopening) hstatements.delimitersOf
      exact each_mk.mpr ⟨trivial, List.forall_mem_map.mpr (hstatements.sound hlogic)⟩

theorem Components.sound {components : List Component} (h : Components .operation room budget components tokens)
    (hspoken : SpokenWithin tokens) : ∀ component ∈ components, (Outline.ofComponent component).Each Node.Sound := by
  induction h with
  | nil => exact List.forall_mem_nil _
  | @cons component components next tokens rest hcomponent _ ih =>
      have hleft : tokens <:+: tokens ++ next :: rest := (List.prefix_append _ _).isInfix
      have hright : next :: rest <:+: tokens ++ next :: rest := (List.suffix_append _ _).isInfix
      exact List.forall_mem_cons.mpr
        ⟨hcomponent.sound (hspoken.mono hleft), ih (hspoken.mono hright)⟩

end

namespace Document

variable {limits : Limits} {source : String} {document : Document} {node : Node}

/-- Every word in the logic of a document is what the place it stands in asks for: so it is at each node, and at all
nodes below it. -/
theorem sound_of_parse (h : Document.parse limits source = .ok document) (hnode : node ∈ document.nodes) :
    node.outline.Each Node.Sound := by
  obtain ⟨tokens, htokens, hderived⟩ := parse_eq_ok_iff_derived.mp h
  obtain ⟨tree, htree, rfl⟩ := mem_nodes.mp hnode
  obtain ⟨component, hcomponent, htree⟩ := mem_subtrees.mp htree
  have hsound := Components.sound hderived (spokenWithin_of_tokenize htokens) component hcomponent
  have hwithin := htree
  rw [← Node.outline_ofComponent] at hwithin
  obtain ⟨node, rfl⟩ := (Node.ofComponent component).exists_of_mem_subtrees hwithin
  rw [Node.node_outline]
  exact hsound.of_mem_subtrees htree

end Document

end Questionnaire
