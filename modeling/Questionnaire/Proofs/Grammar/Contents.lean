import Questionnaire.Proofs.Grammar.Derivation

/-! What a document keeps of its tokens. Names, literals, runs of text and attributes all go into the tree, each of
them once and in the order of the source. Only the options of a question are sorted, into rows and columns that each
keep that order. -/

namespace Questionnaire

/-- What a token has to say, wherever it stands. -/
inductive Content where
  | name (text : String)
  | command (text : String)
  | number (value : Double)
  | string (value : String)
  | boolean (value : Bool)
  | undefined
  | text (text : String)
  | attribute (name : String)

/-- The kinds that stand between the parts of a document, and at its end. -/
def TokenKind.isMark (kind : TokenKind) : Bool :=
  kind ∈ [.questionOpen, .questionClose, .optionOpen, .optionClose, .embeddedOpen, .embeddedClose, .logicOpen,
    .logicClose, .endOfInput]

/-- Marks, operators and the words of the language have nothing to say. -/
def Token.content? (token : Token) : Option Content :=
  match token.kind with
  | .identifier => some (.name token.text)
  | .callKeyword =>
    if token.text = "evaluate" || token.text = "do" || (AnswerMode.ofKeyword? token.text).isSome then none
    else some (.command token.text)
  | .number => (Double.read? token.text.toList).map .number
  | .string => some (.string token.text)
  | .valueKeyword =>
    if token.text = "true" then some (.boolean true)
    else if token.text = "false" then some (.boolean false)
    else some .undefined
  | .textRun => some (.text token.text)
  | .attributeKeyword => some (.attribute token.text)
  | _ => none

def contentsOf (tokens : List Token) : List Content := tokens.filterMap Token.content?

mutual

def Expr.contents : Expr → List Content
  | .binary left _ right _ => left.contents ++ right.contents
  | .assign target value _ => .name target.text :: value.contents
  | .symbol name _ => [.name name.text]
  | .property container name _ => container.contents ++ [.name name.text]
  | .number value _ => [.number value]
  | .string value _ => [.string value]
  | .boolean value _ => [.boolean value]
  | .undefined _ => [.undefined]
  | .answered question _ answers _ => .name question.text :: Expr.allContents answers

def Expr.allContents : List Expr → List Content
  | [] => []
  | expr :: exprs => expr.contents ++ Expr.allContents exprs

end

def SimpleStatement.contents (statement : SimpleStatement) : List Content := statement.expression.contents

mutual

def Statement.contents : Statement → List Content
  | .simple statement => statement.contents
  | .rule name conditions action _ => .name name.text :: (conditions.flatMap (·.contents) ++ action.contents)
  | .action name action _ => .name name.text :: action.contents
  | .conditionSet name conditions _ => .name name.text :: conditions.flatMap (·.contents)
  | .declaration name none _ => [.name name.text]
  | .declaration name (some value) _ => .name name.text :: value.contents
  | .command name arguments _ => .command name.text :: Expr.allContents arguments
  | .evaluate target _ => [.name target.text]
  | .perform target _ => [.name target.text]

def Block.contents : Block → List Content
  | ⟨statements, _⟩ => Statement.allContents statements

def Statement.allContents : List Statement → List Content
  | [] => []
  | statement :: statements => statement.contents ++ Statement.allContents statements

end

def TextPart.contents : TextPart → List Content
  | .text token => [.text token.text]
  | .embedded statement => statement.contents

def AttributeValue.contents : AttributeValue → List Content
  | .string token => [.string token.text]
  | .embedded statement => statement.contents

def Attribute.contents (one : Attribute) : List Content :=
  (if one.custom then .name one.name else .attribute one.name) :: (one.value.map AttributeValue.contents).getD []

def AnswerOption.contents (option : AnswerOption) : List Content :=
  option.attributes.flatMap Attribute.contents ++ option.texts.flatMap TextPart.contents

/-- The rows and the columns of a question come out of its options, which stood in the order of their contents. -/
inductive Component.Holds : Component → List Content → Prop where
  | question {question : Question} (options : List AnswerOption)
      (hrows : question.rows = options.filter fun option => !option.isColumn)
      (hcolumns : question.columns = options.filter fun option => option.isColumn) :
      Component.Holds (.question question) (question.attributes.flatMap Attribute.contents ++
        (question.texts.flatMap TextPart.contents ++ options.flatMap AnswerOption.contents))
  | heading {heading : Section} : Component.Holds (.heading heading) (heading.attributes.flatMap Attribute.contents)
  | interlude {interlude : Interlude} :
      Component.Holds (.interlude interlude) (Statement.allContents interlude.statements)

/-- The contents of a document, component by component. -/
def Document.Holds (document : Document) (contents : List Content) : Prop :=
  Series Component.Holds document.components contents

namespace Token

variable {token : Token} {kind : TokenKind} {word : String}

theorem content?_of_name (h : token.kind = .identifier) : token.content? = some (.name token.text) := by
  simp [content?, h]

theorem content?_of_punctuation (h : token.spells .punctuation word = true) : token.content? = none := by
  have hkind := (spells_iff.mp h).1
  simp [content?, hkind]

theorem content?_of_operator (h : token.kind = .operator) : token.content? = none := by
  simp [content?, h]

/-- An answer mode is no command. -/
theorem content?_of_mode {mode : AnswerMode} (h : token.kind = .callKeyword)
    (hmode : AnswerMode.ofKeyword? token.text = some mode) : token.content? = none := by
  simp [content?, h, hmode]

theorem content?_of_command (h : token.kind = .callKeyword) (hevaluate : token.text ≠ "evaluate")
    (hperform : token.text ≠ "do") (hmode : AnswerMode.ofKeyword? token.text = none) :
    token.content? = some (.command token.text) := by
  simp [content?, h, hevaluate, hperform, hmode]

theorem content?_of_evaluate (h : token.spells .callKeyword "evaluate" = true) : token.content? = none := by
  obtain ⟨hkind, htext⟩ := spells_iff.mp h
  simp [content?, hkind, htext]

theorem content?_of_perform (h : token.spells .callKeyword "do" = true) : token.content? = none := by
  obtain ⟨hkind, htext⟩ := spells_iff.mp h
  simp [content?, hkind, htext]

theorem content?_of_attribute (h : token.kind = .attributeKeyword) :
    token.content? = some (.attribute token.text) := by
  simp [content?, h]

theorem content?_of_string (h : token.kind = .string) : token.content? = some (.string token.text) := by
  simp [content?, h]

theorem content?_of_text (h : token.kind = .textRun) : token.content? = some (.text token.text) := by
  simp [content?, h]

theorem content?_of_mark (h : token.kind.isMark = true) : token.content? = none := by
  unfold content?
  cases hkind : token.kind <;> rw [hkind] at h <;> first | rfl | cases h

theorem content?_of_keyword (h : token.spells .keyword word = true) : token.content? = none := by
  have hkind := (spells_iff.mp h).1
  simp [content?, hkind]

end Token

section

variable (token : Token) (tokens left right : List Token)

theorem contentsOf_cons : contentsOf (token :: tokens) = token.content?.toList ++ contentsOf tokens := by
  rw [contentsOf, List.filterMap_cons]
  cases token.content? <;> rfl

theorem contentsOf_append : contentsOf (left ++ right) = contentsOf left ++ contentsOf right :=
  List.filterMap_append

end

theorem Series.contents {α : Type} {derives : α → List Token → Prop} {contents : α → List Content} {values : List α}
    {tokens : List Token} (h : Series derives values tokens)
    (hvalue : ∀ value tokens, derives value tokens → contentsOf tokens = contents value) :
    contentsOf tokens = values.flatMap contents := by
  induction h with
  | nil => rfl
  | cons hderives _ ih => rw [contentsOf_append, hvalue _ _ hderives, ih, List.flatMap_cons]

namespace Expr

theorem contents_withSpan (expr : Expr) (span : Span) : (expr.withSpan span).contents = expr.contents := by
  cases expr <;> rfl

theorem contents_withMembers (container : Expr) (names : List Token) :
    (container.withMembers names).contents = container.contents ++ names.map fun name => .name name.text := by
  induction names generalizing container with
  | nil => exact (List.append_nil _).symm
  | cons name names ih =>
      have hstep : container.withMembers (name :: names) =
          (Expr.property container name ⟨container.span.first, name⟩).withMembers names := rfl
      rw [hstep, ih, contents, List.append_assoc]
      rfl

end Expr

theorem Chain.contents_expr (chain : Chain) :
    chain.expr.contents = chain.first.contents ++ chain.links.flatMap fun link => link.2.contents := by
  induction chain with
  | operand => simp [expr, first, links]
  | operation left op right ihLeft ihRight =>
      rw [expr, Expr.contents, ihLeft, ihRight, first, links, List.flatMap_append, List.flatMap_cons,
        List.append_assoc]

theorem contentsOf_members {names members : List Token} (h : Series Member names members) :
    contentsOf members = names.map fun name => .name name.text := by
  induction h with
  | nil => rfl
  | cons hmember _ ih =>
      cases hmember with
      | mk hdot hname =>
          rw [contentsOf_append, ih, contentsOf_cons, contentsOf_cons, Token.content?_of_punctuation hdot,
            Token.content?_of_name hname]
          rfl

def Phrase.contents : Phrase → List Content
  | .operand expr => expr.contents
  | .links operators => operators.flatMap fun link => link.2.contents
  | .operation expr => expr.contents
  | .expression expr => expr.contents
  | .further answers => Expr.allContents answers
  | .arguments answers => Expr.allContents answers

theorem contents_constant {token : Token} (h : token.kind = .valueKeyword) :
    contentsOf [token] = (Rule.constant token.text (.single token)).contents := by
  rw [contentsOf_cons, Token.content?]
  simp only [h]
  unfold Rule.constant
  by_cases htrue : token.text = "true"
  · rw [if_pos htrue, if_pos htrue]
    rfl
  rw [if_neg htrue, if_neg htrue]
  by_cases hfalse : token.text = "false"
  · rw [if_pos hfalse, if_pos hfalse]
    rfl
  · rw [if_neg hfalse, if_neg hfalse]
    rfl

/-- An expression keeps what its tokens say. -/
theorem Derives.contents {room : Nat} {phrase : Phrase} {tokens : List Token} (h : Derives room phrase tokens) :
    contentsOf tokens = phrase.contents := by
  induction h with
  | number hkind hvalue =>
      rw [contentsOf_cons, Token.content?]
      simp only [hkind, hvalue]
      rfl
  | string hkind =>
      rw [contentsOf_cons, Token.content?]
      simp only [hkind]
      rfl
  | constant hkind => exact contents_constant hkind
  | reference hkind hmembers =>
      rw [contentsOf_cons, contentsOf_members hmembers, Token.content?_of_name hkind, Phrase.contents,
        Expr.contents_withMembers]
      rfl
  | group hopening _ hclosing hmembers _ ih =>
      rw [contentsOf_cons, contentsOf_append, contentsOf_cons, contentsOf_members hmembers,
        Token.content?_of_punctuation hopening, Token.content?_of_punctuation hclosing, ih, Phrase.contents,
        Expr.contents_withMembers, Expr.contents_withSpan]
      rfl
  | answered hfirst hfiller hquestion hcall hmode _ ih =>
      rw [contentsOf_cons, contentsOf_cons, contentsOf_cons, contentsOf_cons, Token.content?_of_keyword hfirst,
        Token.content?_of_keyword hfiller, Token.content?_of_name hquestion, Token.content?_of_mode hcall hmode, ih]
      rfl
  | noLinks => rfl
  | link hkind _ _ _ ihExpr ihLinks =>
      rw [contentsOf_cons, contentsOf_append, Token.content?_of_operator hkind, ihExpr, ihLinks]
      rfl
  | operation _ _ _ ihFirst ihLinks =>
      rw [contentsOf_append, ihFirst, ihLinks]
      exact (Chain.contents_expr _).symm
  | bare _ ih => exact ih
  | assign _ hequals _ ihTarget ihValue =>
      rw [contentsOf_append, contentsOf_cons, Token.content?_of_operator (Token.spells_iff.mp hequals).1, ihTarget,
        ihValue]
      rfl
  | noFurther => rfl
  | further hcomma _ _ ihAnswer ihAnswers =>
      rw [contentsOf_cons, contentsOf_append, Token.content?_of_punctuation hcomma, ihAnswer, ihAnswers]
      rfl
  | noArguments hopening hclosing =>
      rw [contentsOf_cons, contentsOf_cons, Token.content?_of_punctuation hopening,
        Token.content?_of_punctuation hclosing]
      rfl
  | arguments hopening _ _ hclosing ihAnswer ihAnswers =>
      rw [contentsOf_cons, contentsOf_append, contentsOf_append, contentsOf_cons,
        Token.content?_of_punctuation hopening, Token.content?_of_punctuation hclosing, ihAnswer, ihAnswers]
      exact congrArg _ (congrArg _ (List.append_nil _))

variable {room budget : Nat} {tokens : List Token}

theorem Simple.contents {statement : SimpleStatement} (h : Simple room budget statement tokens) :
    contentsOf tokens = statement.contents := by
  cases h with
  | mk hexpr => exact hexpr.contents

theorem Condition.contents {statement : SimpleStatement} (h : Condition room budget statement tokens) :
    contentsOf tokens = statement.contents := by
  cases h with
  | mk hbar hstatement =>
      rw [contentsOf_cons, Token.content?_of_punctuation hbar, hstatement.contents]
      rfl

def Clause.contents : Clause → List Content
  | .statement value => value.contents
  | .bare value => value.contents
  | .statements values => Statement.allContents values
  | .block value => value.contents

/-- A statement keeps what its tokens say. -/
theorem Logic.contents {clause : Clause} (h : Logic .operation budget room clause tokens) :
    contentsOf tokens = clause.contents := by
  induction h with
  | simple hstatement => exact hstatement.contents
  | rule hfirst hname hcolon _ hconditions _ ih =>
      rw [contentsOf_cons, contentsOf_cons, contentsOf_cons, contentsOf_append, Token.content?_of_keyword hfirst,
        Token.content?_of_name hname, Token.content?_of_punctuation hcolon,
        hconditions.contents fun _ _ => Condition.contents, ih]
      rfl
  | action hfirst hname _ ih =>
      rw [contentsOf_cons, contentsOf_cons, Token.content?_of_keyword hfirst, Token.content?_of_name hname, ih]
      rfl
  | conditionSet hfirst hname hcolon _ hconditions hlast =>
      rw [contentsOf_cons, contentsOf_cons, contentsOf_cons, contentsOf_append, contentsOf_cons,
        Token.content?_of_keyword hfirst, Token.content?_of_name hname, Token.content?_of_punctuation hcolon,
        Token.content?_of_keyword hlast, hconditions.contents fun _ _ => Condition.contents]
      exact congrArg (List.cons _) (List.append_nil _)
  | declaration hfirst hname =>
      rw [contentsOf_cons, contentsOf_cons, Token.content?_of_keyword hfirst, Token.content?_of_name hname]
      rfl
  | definition hfirst hname hequals hvalue =>
      rw [contentsOf_cons, contentsOf_cons, contentsOf_cons, Token.content?_of_keyword hfirst,
        Token.content?_of_name hname, Token.content?_of_operator (Token.spells_iff.mp hequals).1, hvalue.contents]
      rfl
  | command hname hevaluate hperform hmode harguments =>
      rw [contentsOf_cons, Token.content?_of_command hname hevaluate hperform hmode, harguments.contents]
      rfl
  | evaluate hfirst htarget =>
      rw [contentsOf_cons, contentsOf_cons, Token.content?_of_evaluate hfirst, Token.content?_of_name htarget]
      rfl
  | perform hfirst htarget =>
      rw [contentsOf_cons, contentsOf_cons, Token.content?_of_perform hfirst, Token.content?_of_name htarget]
      rfl
  | unended _ ih => exact ih
  | ended _ hsemicolon ih =>
      rw [contentsOf_append, contentsOf_cons, Token.content?_of_punctuation hsemicolon, ih]
      exact List.append_nil _
  | noStatements => rfl
  | statements _ _ ih ihRest =>
      rw [contentsOf_append, ih, ihRest]
      rfl
  | block hopening _ hclosing ih =>
      rw [contentsOf_cons, contentsOf_append, contentsOf_cons, Token.content?_of_punctuation hopening,
        Token.content?_of_punctuation hclosing, ih]
      exact List.append_nil _

theorem Embedded.contents {statement : SimpleStatement} (h : Embedded budget room statement tokens) :
    contentsOf tokens = statement.contents := by
  cases h with
  | @mk _ opening closing _ _ hopening hexpr _ hclosing =>
      have hleft : opening.kind.isMark = true := by rw [hopening]; rfl
      have hright : closing.kind.isMark = true := by rw [hclosing]; rfl
      rw [contentsOf_cons, contentsOf_append, contentsOf_cons, Token.content?_of_mark hleft,
        Token.content?_of_mark hright, hexpr.contents]
      exact List.append_nil _

theorem Attributed.contents {one : Attribute} (h : Attributed room budget one tokens) :
    contentsOf tokens = one.contents := by
  cases h with
  | custom hname =>
      rw [contentsOf_cons, Token.content?_of_name hname]
      rfl
  | bare hname =>
      rw [contentsOf_cons, Token.content?_of_attribute hname]
      rfl
  | valued hname hequals hvalue =>
      rw [contentsOf_cons, contentsOf_cons, Token.content?_of_attribute hname, Token.content?_of_punctuation hequals]
      cases hvalue with
      | string hkind =>
          rw [contentsOf_cons, Token.content?_of_string hkind]
          rfl
      | embedded hstatement =>
          rw [hstatement.contents]
          rfl

theorem Attributes.contents {left right : TokenKind} {attributes : List Attribute} (hleft : left.isMark = true)
    (hright : right.isMark = true) (h : Attributes room budget left right attributes tokens) :
    contentsOf tokens = attributes.flatMap Attribute.contents := by
  cases h with
  | mk hopening hattributes hclosing =>
      rw [contentsOf_cons, contentsOf_append, contentsOf_cons, Token.content?_of_mark (by rw [hopening, hleft]),
        Token.content?_of_mark (by rw [hclosing, hright]), hattributes.contents fun _ _ => Attributed.contents]
      exact List.append_nil _

theorem Textual.contents {part : TextPart} (h : Textual room budget part tokens) :
    contentsOf tokens = part.contents := by
  cases h with
  | text hkind =>
      rw [contentsOf_cons, Token.content?_of_text hkind]
      rfl
  | embedded hstatement => exact hstatement.contents

theorem Optional.contents {option : AnswerOption} (h : Optional room budget option tokens) :
    contentsOf tokens = option.contents := by
  cases h with
  | mk hattributes htexts =>
      rw [← List.cons_append, contentsOf_append, hattributes.contents rfl rfl,
        htexts.contents fun _ _ => Textual.contents]
      rfl

theorem Component.Derived.holds {next : Token} {component : Component}
    (h : Component.Derived .operation room budget next component tokens) : component.Holds (contentsOf tokens) := by
  cases h with
  | heading hattributes =>
      rw [hattributes.contents rfl rfl]
      exact .heading
  | question hattributes _ htexts hoptions =>
      rw [← List.cons_append, contentsOf_append, contentsOf_append, hattributes.contents rfl rfl,
        htexts.contents fun _ _ => Textual.contents, hoptions.contents fun _ _ => Optional.contents]
      exact .question _ rfl rfl
  | interlude hopening hstatements hclosing =>
      rw [contentsOf_cons, contentsOf_append, contentsOf_cons, Token.content?_of_mark (by rw [hopening]; rfl),
        Token.content?_of_mark (by rw [hclosing]; rfl), hstatements.contents]
      exact List.append_nil (Statement.allContents _) ▸ .interlude

/-- A document keeps what its tokens say. -/
theorem Document.Derived.holds {document : Document} (h : document.Derived .operation room budget tokens) :
    document.Holds (contentsOf tokens) := by
  obtain ⟨components⟩ := document
  unfold Document.Derived at h
  dsimp only at h
  unfold Document.Holds
  dsimp only
  induction h with
  | nil hlast =>
      rw [contentsOf_cons, Token.content?_of_mark (by rw [hlast]; rfl)]
      exact .nil
  | cons hcomponent _ ih =>
      rw [contentsOf_append]
      exact .cons hcomponent.holds ih

end Questionnaire
