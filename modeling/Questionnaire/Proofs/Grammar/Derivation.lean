import Questionnaire.Proofs.Grammar.Precedence
import Questionnaire.Grammar.Document

/-! The grammar of survey documents, as the ways to derive a tree from tokens. Nothing here reads ahead: a
derivation covers its tokens from the first to the last. Every derivation is within bounds, one on the brackets
around a token and one on the operators and members of an expression that no other one contains. -/

namespace Questionnaire

theorem Token.spells_iff {token : Token} {kind : TokenKind} {word : String} :
    token.spells kind word = true ↔ token.kind = kind ∧ token.text = word := by
  simp [spells]

/-- Stretches one after another, each for one of the values. -/
inductive Series {α β : Type} (holds : α → List β → Prop) : List α → List β → Prop where
  | nil : Series holds [] []
  | cons {value : α} {values : List α} {stretch rest : List β} (hvalue : holds value stretch) :
      Series holds values rest → Series holds (value :: values) (stretch ++ rest)

theorem Series.head {α β : Type} {holds : α → List β → Prop} {p : β → Prop} {values : List α} {whole : List β}
    (h : Series holds values whole)
    (hhead : ∀ value stretch, holds value stretch → ∀ first ∈ stretch.head?, p first) :
    ∀ first ∈ whole.head?, p first := by
  induction h with
  | nil => simp
  | @cons value values stretch rest hvalue _ ih =>
      cases stretch with
      | nil => exact ih
      | cons first stretch =>
          intro token htoken
          exact hhead value _ hvalue token htoken

/-- The costs of the values together. -/
def total {α : Type} (cost : α → Nat) : List α → Nat
  | [] => 0
  | value :: values => cost value + total cost values

theorem total_eq_zero {α : Type} (values : List α) : total (fun _ => 0) values = 0 := by
  induction values with
  | nil => rfl
  | cons value values ih => rw [total, ih]

/-- From the first token to the last of those after it. -/
def Span.over (first : Token) (more : List Token) : Span := ⟨first, more.getLastD first⟩

/-- The expression asked for members, the outermost last. -/
def Expr.withMembers (container : Expr) (names : List Token) : Expr :=
  names.foldl (fun owner name => .property owner name ⟨owner.span.first, name⟩) container

mutual

/-- How many operators and members there are in an expression. -/
def Expr.charge : Expr → Nat
  | .binary left _ right _ => left.charge + 1 + right.charge
  | .assign _ value _ => value.charge
  | .symbol _ _ => 0
  | .property container _ _ => container.charge + 1
  | .number _ _ => 0
  | .string _ _ => 0
  | .boolean _ _ => 0
  | .undefined _ => 0
  | .answered _ _ answers _ => Expr.charges answers

/-- How many operators and members there are in all of the expressions. -/
def Expr.charges : List Expr → Nat
  | [] => 0
  | expr :: exprs => expr.charge + Expr.charges exprs

end

theorem Expr.charges_eq_total (exprs : List Expr) : charges exprs = total charge exprs := by
  induction exprs with
  | nil => rfl
  | cons expr exprs ih => rw [charges, total, ih]

/-- How many operators and members there are in a chain after its first operand. -/
def Chain.charges (links : List (BinaryOp × Expr)) : Nat := total (fun link => 1 + link.2.charge) links

/-- A member asked for. -/
inductive Member : Token → List Token → Prop where
  | mk {dot name : Token} (hdot : dot.spells .punctuation "." = true) (hname : name.kind = .identifier) :
      Member name [dot, name]

/-- What tokens within an expression may be derived as. -/
inductive Phrase where
  | operand (expr : Expr)
  /-- Operators, each with the operand after it. -/
  | links (links : List (BinaryOp × Expr))
  | operation (expr : Expr)
  | expression (expr : Expr)
  /-- Expressions, each after a comma. -/
  | further (answers : List Expr)
  | arguments (answers : List Expr)

def Phrase.charge : Phrase → Nat
  | .operand expr => expr.charge
  | .links operators => Chain.charges operators
  | .operation expr => expr.charge
  | .expression expr => expr.charge
  | .further answers => Expr.charges answers
  | .arguments answers => Expr.charges answers

/-- Derivations of expressions, within so many brackets. Only a reference has members, in brackets or not, and only
a name, in brackets or not, is given a value. -/
inductive Derives : Nat → Phrase → List Token → Prop where
  | number {room : Nat} {token : Token} {value : Double} (hkind : token.kind = .number)
      (hvalue : Double.read? token.text.toList = some value) :
      Derives room (.operand (.number value (.single token))) [token]
  | string {room : Nat} {token : Token} (hkind : token.kind = .string) :
      Derives room (.operand (.string token.text (.single token))) [token]
  | constant {room : Nat} {token : Token} (hkind : token.kind = .valueKeyword) :
      Derives room (.operand (Rule.constant token.text (.single token))) [token]
  | reference {room : Nat} {name : Token} {names members : List Token} (hkind : name.kind = .identifier)
      (hmembers : Series Member names members) :
      Derives room (.operand (Expr.withMembers (.symbol name (.single name)) names)) (name :: members)
  | group {room : Nat} {opening closing : Token} {expr : Expr} {tokens names members : List Token}
      (hopening : opening.spells .punctuation "(" = true) (hexpr : Derives room (.expression expr) tokens)
      (hclosing : closing.spells .punctuation ")" = true) (hmembers : Series Member names members)
      (hreference : names = [] ∨ expr.isReference = true) :
      Derives (room + 1) (.operand ((expr.withSpan ⟨opening, closing⟩).withMembers names))
        (opening :: (tokens ++ closing :: members))
  | answered {room : Nat} {first filler question call : Token} {mode : AnswerMode} {answers : List Expr}
      {tokens : List Token} (hfirst : first.spells .keyword "answer" = true)
      (hfiller : filler.spells .keyword "for" = true) (hquestion : question.kind = .identifier)
      (hcall : call.kind = .callKeyword) (hmode : AnswerMode.ofKeyword? call.text = some mode)
      (hanswers : Derives room (.arguments answers) tokens) :
      Derives room (.operand (.answered question mode answers (.over first (filler :: question :: call :: tokens))))
        (first :: filler :: question :: call :: tokens)
  | noLinks {room : Nat} : Derives room (.links []) []
  | link {room : Nat} {token : Token} {op : BinaryOp} {expr : Expr} {links : List (BinaryOp × Expr)}
      {tokens rest : List Token} (hkind : token.kind = .operator) (hop : BinaryOp.ofLexeme? token.text = some op)
      (hexpr : Derives room (.operand expr) tokens) (hlinks : Derives room (.links links) rest) :
      Derives room (.links ((op, expr) :: links)) (token :: (tokens ++ rest))
  | operation {room : Nat} {chain : Chain} {tokens rest : List Token} (hordered : chain.Ordered)
      (hfirst : Derives room (.operand chain.first) tokens) (hlinks : Derives room (.links chain.links) rest) :
      Derives room (.operation chain.expr) (tokens ++ rest)
  | bare {room : Nat} {expr : Expr} {tokens : List Token} (hexpr : Derives room (.operation expr) tokens) :
      Derives room (.expression expr) tokens
  | assign {room : Nat} {target equals : Token} {span : Span} {value : Expr} {tokens rest : List Token}
      (htarget : Derives room (.operation (.symbol target span)) tokens)
      (hequals : equals.spells .operator "=" = true) (hvalue : Derives room (.operation value) rest) :
      Derives room (.expression (.assign target value ⟨span.first, value.span.last⟩)) (tokens ++ equals :: rest)
  | noFurther {room : Nat} : Derives room (.further []) []
  | further {room : Nat} {comma : Token} {answer : Expr} {answers : List Expr} {tokens rest : List Token}
      (hcomma : comma.spells .punctuation "," = true) (hanswer : Derives room (.expression answer) tokens)
      (hanswers : Derives room (.further answers) rest) :
      Derives room (.further (answer :: answers)) (comma :: (tokens ++ rest))
  | noArguments {room : Nat} {opening closing : Token} (hopening : opening.spells .punctuation "(" = true)
      (hclosing : closing.spells .punctuation ")" = true) :
      Derives (room + 1) (.arguments []) [opening, closing]
  | arguments {room : Nat} {opening closing : Token} {answer : Expr} {answers : List Expr}
      {tokens rest : List Token} (hopening : opening.spells .punctuation "(" = true)
      (hanswer : Derives room (.expression answer) tokens) (hanswers : Derives room (.further answers) rest)
      (hclosing : closing.spells .punctuation ")" = true) :
      Derives (room + 1) (.arguments (answer :: answers)) (opening :: (tokens ++ (rest ++ [closing])))

/-- An operand without operators after it. -/
theorem Derives.operation_of_operand {room : Nat} {first : Expr} {tokens : List Token}
    (h : Derives room (.operand first) tokens) : Derives room (.operation first) tokens := by
  have hordered : (Chain.operand first).Ordered := trivial
  rw [← List.append_nil tokens]
  exact .operation hordered h .noLinks

/-- An expression that stands by itself. -/
inductive Simple (room budget : Nat) : SimpleStatement → List Token → Prop where
  | mk {expr : Expr} {first : Token} {more : List Token} (hexpr : Derives room (.expression expr) (first :: more))
      (hcharge : expr.charge ≤ budget) : Simple room budget ⟨expr, .over first more⟩ (first :: more)

inductive Condition (room budget : Nat) : SimpleStatement → List Token → Prop where
  | mk {bar : Token} {statement : SimpleStatement} {tokens : List Token}
      (hbar : bar.spells .punctuation "|" = true) (hstatement : Simple room budget statement tokens) :
      Condition room budget statement (bar :: tokens)

/-- What tokens within an interlude may be derived as. -/
inductive Clause where
  | statement (statement : Statement)
  /-- A statement without the semicolon after it. -/
  | bare (statement : Statement)
  | statements (statements : List Statement)
  | block (block : Block)

/-- Derivations of statements, for what the value of a declaration may be. No answer mode is the name of a command. -/
inductive Logic (initial : Expr → Phrase) (budget : Nat) : Nat → Clause → List Token → Prop where
  | simple {room : Nat} {statement : SimpleStatement} {tokens : List Token}
      (hstatement : Simple room budget statement tokens) : Logic initial budget room (.bare (.simple statement)) tokens
  | rule {room : Nat} {first name colon : Token} {conditions : List SimpleStatement} {action : Block}
      {tokens rest : List Token} (hfirst : first.spells .keyword "rule" = true) (hname : name.kind = .identifier)
      (hcolon : colon.spells .punctuation ":" = true) (hne : conditions ≠ [])
      (hconditions : Series (Condition room budget) conditions tokens)
      (haction : Logic initial budget room (.block action) rest) :
      Logic initial budget room (.bare (.rule name conditions action (.over first (name :: colon :: (tokens ++ rest)))))
        (first :: name :: colon :: (tokens ++ rest))
  | action {room : Nat} {first name : Token} {action : Block} {tokens : List Token}
      (hfirst : first.spells .keyword "action" = true) (hname : name.kind = .identifier)
      (haction : Logic initial budget room (.block action) tokens) :
      Logic initial budget room (.bare (.action name action (.over first (name :: tokens)))) (first :: name :: tokens)
  | conditionSet {room : Nat} {first name colon last : Token} {conditions : List SimpleStatement}
      {tokens : List Token} (hfirst : first.spells .keyword "conditions" = true) (hname : name.kind = .identifier)
      (hcolon : colon.spells .punctuation ":" = true) (hne : conditions ≠ [])
      (hconditions : Series (Condition room budget) conditions tokens)
      (hlast : last.spells .keyword "end" = true) :
      Logic initial budget room (.bare (.conditionSet name conditions ⟨first, last⟩))
        (first :: name :: colon :: (tokens ++ [last]))
  | declaration {room : Nat} {first name : Token} (hfirst : first.spells .keyword "def" = true)
      (hname : name.kind = .identifier) :
      Logic initial budget room (.bare (.declaration name none ⟨first, name⟩)) [first, name]
  | definition {room : Nat} {first name equals : Token} {value : Expr} {tokens : List Token}
      (hfirst : first.spells .keyword "def" = true) (hname : name.kind = .identifier)
      (hequals : equals.spells .operator "=" = true) (hvalue : Derives room (initial value) tokens)
      (hcharge : value.charge ≤ budget) :
      Logic initial budget room (.bare (.declaration name (some value) (.over first (name :: equals :: tokens))))
        (first :: name :: equals :: tokens)
  | command {room : Nat} {name : Token} {arguments : List Expr} {tokens : List Token}
      (hname : name.kind = .callKeyword) (hevaluate : name.text ≠ "evaluate") (hperform : name.text ≠ "do")
      (hmode : AnswerMode.ofKeyword? name.text = none) (harguments : Derives room (.arguments arguments) tokens)
      (hcharge : Expr.charges arguments ≤ budget) :
      Logic initial budget room (.bare (.command name arguments (.over name tokens))) (name :: tokens)
  | evaluate {room : Nat} {first target : Token} (hfirst : first.spells .callKeyword "evaluate" = true)
      (htarget : target.kind = .identifier) :
      Logic initial budget room (.bare (.evaluate target ⟨first, target⟩)) [first, target]
  | perform {room : Nat} {first target : Token} (hfirst : first.spells .callKeyword "do" = true)
      (htarget : target.kind = .identifier) :
      Logic initial budget room (.bare (.perform target ⟨first, target⟩)) [first, target]
  | unended {room : Nat} {statement : Statement} {tokens : List Token}
      (hstatement : Logic initial budget room (.bare statement) tokens) :
      Logic initial budget room (.statement statement) tokens
  | ended {room : Nat} {statement : Statement} {tokens : List Token} {semicolon : Token}
      (hstatement : Logic initial budget room (.bare statement) tokens)
      (hsemicolon : semicolon.spells .punctuation ";" = true) :
      Logic initial budget room (.statement statement) (tokens ++ [semicolon])
  | noStatements {room : Nat} : Logic initial budget room (.statements []) []
  | statements {room : Nat} {statement : Statement} {statements : List Statement} {tokens rest : List Token}
      (hstatement : Logic initial budget room (.statement statement) tokens)
      (hstatements : Logic initial budget room (.statements statements) rest) :
      Logic initial budget room (.statements (statement :: statements)) (tokens ++ rest)
  | block {room : Nat} {opening closing : Token} {statements : List Statement} {tokens : List Token}
      (hopening : opening.spells .punctuation "\x7b" = true)
      (hstatements : Logic initial budget room (.statements statements) tokens)
      (hclosing : closing.spells .punctuation "\x7d" = true) :
      Logic initial budget (room + 1) (.block ⟨statements, ⟨opening, closing⟩⟩) (opening :: (tokens ++ [closing]))

/-- Statements are still derived when the values of declarations may be more. -/
theorem Logic.mono {initial wider : Expr → Phrase} {budget room : Nat} {clause : Clause} {tokens : List Token}
    (hwider : ∀ room value tokens, Derives room (initial value) tokens → Derives room (wider value) tokens)
    (h : Logic initial budget room clause tokens) : Logic wider budget room clause tokens := by
  induction h with
  | simple hstatement => exact .simple hstatement
  | rule hfirst hname hcolon hne hconditions _ ih => exact .rule hfirst hname hcolon hne hconditions ih
  | action hfirst hname _ ih => exact .action hfirst hname ih
  | conditionSet hfirst hname hcolon hne hconditions hlast =>
      exact .conditionSet hfirst hname hcolon hne hconditions hlast
  | declaration hfirst hname => exact .declaration hfirst hname
  | definition hfirst hname hequals hvalue hcharge =>
      exact .definition hfirst hname hequals (hwider _ _ _ hvalue) hcharge
  | command hname hevaluate hperform hmode harguments hcharge =>
      exact .command hname hevaluate hperform hmode harguments hcharge
  | evaluate hfirst htarget => exact .evaluate hfirst htarget
  | perform hfirst htarget => exact .perform hfirst htarget
  | unended _ ih => exact .unended ih
  | ended _ hsemicolon ih => exact .ended ih hsemicolon
  | noStatements => exact .noStatements
  | statements _ _ ih ihRest => exact .statements ih ihRest
  | block hopening _ hclosing ih => exact .block hopening ih hclosing

/-- An expression in a text or as the value of an attribute. -/
inductive Embedded (budget : Nat) : Nat → SimpleStatement → List Token → Prop where
  | mk {room : Nat} {opening closing : Token} {expr : Expr} {tokens : List Token}
      (hopening : opening.kind = .embeddedOpen) (hexpr : Derives room (.expression expr) tokens)
      (hcharge : expr.charge ≤ budget) (hclosing : closing.kind = .embeddedClose) :
      Embedded budget (room + 1) ⟨expr, ⟨opening, closing⟩⟩ (opening :: (tokens ++ [closing]))

inductive Valued (room budget : Nat) : AttributeValue → List Token → Prop where
  | string {token : Token} (hkind : token.kind = .string) : Valued room budget (.string token) [token]
  | embedded {statement : SimpleStatement} {tokens : List Token}
      (hstatement : Embedded budget room statement tokens) : Valued room budget (.embedded statement) tokens

inductive Attributed (room budget : Nat) : Attribute → List Token → Prop where
  | custom {name : Token} (hname : name.kind = .identifier) :
      Attributed room budget ⟨name.text, none, true, .single name⟩ [name]
  | bare {name : Token} (hname : name.kind = .attributeKeyword) :
      Attributed room budget ⟨name.text, none, false, .single name⟩ [name]
  | valued {name equals : Token} {value : AttributeValue} {tokens : List Token}
      (hname : name.kind = .attributeKeyword) (hequals : equals.spells .punctuation "=" = true)
      (hvalue : Valued room budget value tokens) :
      Attributed room budget ⟨name.text, some value, false, .over name (equals :: tokens)⟩ (name :: equals :: tokens)

/-- Attributes between two marks. -/
inductive Attributes (room budget : Nat) (left right : TokenKind) : List Attribute → List Token → Prop where
  | mk {opening closing : Token} {attributes : List Attribute} {tokens : List Token}
      (hopening : opening.kind = left) (hattributes : Series (Attributed room budget) attributes tokens)
      (hclosing : closing.kind = right) :
      Attributes room budget left right attributes (opening :: (tokens ++ [closing]))

inductive Textual (room budget : Nat) : TextPart → List Token → Prop where
  | text {token : Token} (hkind : token.kind = .textRun) : Textual room budget (.text token) [token]
  | embedded {statement : SimpleStatement} {tokens : List Token}
      (hstatement : Embedded budget room statement tokens) : Textual room budget (.embedded statement) tokens

inductive Optional (room budget : Nat) : AnswerOption → List Token → Prop where
  | mk {first : Token} {attributes : List Attribute} {texts : List TextPart} {tokens rest : List Token}
      (hattributes : Attributes room budget .optionOpen .optionClose attributes (first :: tokens))
      (htexts : Series (Textual room budget) texts rest) :
      Optional room budget ⟨texts, attributes, .over first (tokens ++ rest)⟩ (first :: (tokens ++ rest))

/-- Derivations of one component of a survey, with the token after it. Attributes that another component follows at
once are a section, and all others are those of a question. The options of a question are its columns and its
rows. -/
inductive Component.Derived (initial : Expr → Phrase) (room budget : Nat) (next : Token) :
    Component → List Token → Prop where
  | heading {first : Token} {attributes : List Attribute} {tokens : List Token}
      (hattributes : Attributes room budget .questionOpen .questionClose attributes (first :: tokens))
      (hnext : Rule.opensComponent next = true) :
      Component.Derived initial room budget next (.heading ⟨attributes, .over first tokens⟩) (first :: tokens)
  | question {first : Token} {attributes : List Attribute} {texts : List TextPart} {options : List AnswerOption}
      {tokens textual optional : List Token}
      (hattributes : Attributes room budget .questionOpen .questionClose attributes (first :: tokens))
      (hnext : Rule.opensComponent ((textual ++ optional).headD next) = false)
      (htexts : Series (Textual room budget) texts textual)
      (hoptions : Series (Optional room budget) options optional) :
      Component.Derived initial room budget next
        (.question ⟨texts, attributes, options.filter fun option => !option.isColumn, options.filter (·.isColumn),
          .over first (tokens ++ (textual ++ optional))⟩)
        (first :: (tokens ++ (textual ++ optional)))
  | interlude {opening closing : Token} {statements : List Statement} {tokens : List Token}
      (hopening : opening.kind = .logicOpen) (hstatements : Logic initial budget room (.statements statements) tokens)
      (hclosing : closing.kind = .logicClose) :
      Component.Derived initial room budget next (.interlude ⟨statements, ⟨opening, closing⟩⟩)
        (opening :: (tokens ++ [closing]))

/-- Components up to the end of input. -/
inductive Components (initial : Expr → Phrase) (room budget : Nat) : List Component → List Token → Prop where
  | nil {last : Token} (hlast : last.kind = .endOfInput) : Components initial room budget [] [last]
  | cons {component : Component} {components : List Component} {next : Token} {tokens rest : List Token}
      (hcomponent : Component.Derived initial room budget next component tokens)
      (hcomponents : Components initial room budget components (next :: rest)) :
      Components initial room budget (component :: components) (tokens ++ next :: rest)

/-- Derivations of a document. A survey is read by the grammar in which the value of a declaration is an operation, so
that it assigns only within brackets; with an expression for it the grammar is wider. -/
def Document.Derived (initial : Expr → Phrase) (room budget : Nat) (document : Document) (tokens : List Token) :
    Prop :=
  Components initial room budget document.components tokens

section

variable {initial wider : Expr → Phrase} {room budget : Nat} {tokens : List Token}
  (hwider : ∀ room value tokens, Derives room (initial value) tokens → Derives room (wider value) tokens)

include hwider

theorem Component.Derived.mono {next : Token} {component : Component}
    (h : Component.Derived initial room budget next component tokens) :
    Component.Derived wider room budget next component tokens := by
  cases h with
  | heading hattributes hnext => exact .heading hattributes hnext
  | question hattributes hnext htexts hoptions => exact .question hattributes hnext htexts hoptions
  | interlude hopening hstatements hclosing => exact .interlude hopening (hstatements.mono hwider) hclosing

theorem Components.mono {components : List Component} (h : Components initial room budget components tokens) :
    Components wider room budget components tokens := by
  induction h with
  | nil hlast => exact .nil hlast
  | cons hcomponent _ ih => exact .cons (hcomponent.mono hwider) ih

end

/-- What is derived with operations for the declared values is derived with expressions for them. -/
theorem Document.Derived.wider {document : Document} {room budget : Nat} {tokens : List Token}
    (h : document.Derived .operation room budget tokens) : document.Derived .expression room budget tokens :=
  Components.mono (fun _ _ _ => .bare) h

end Questionnaire
