import Questionnaire.Proofs.Grammar.Derivation
import Questionnaire.Proofs.Token.Delimiters

/-! The delimiters of what is derived. An expression or a statement has none, and those of a component pair off, so that
none is left open where a document ends. -/

namespace Questionnaire

section

variable {token : Token} {tokens : List Token} {kind : TokenKind} {word : String} {room budget : Nat}

theorem delimitersOf_of_kind (h : token.kind = kind) (hkind : kind.delimiter? = none) (tokens : List Token) :
    delimitersOf (token :: tokens) = delimitersOf tokens := by
  rw [delimitersOf_cons, h, hkind]
  rfl

theorem delimitersOf_of_word (h : token.spells kind word = true) (hkind : kind.delimiter? = none)
    (tokens : List Token) : delimitersOf (token :: tokens) = delimitersOf tokens :=
  delimitersOf_of_kind (Token.spells_iff.mp h).1 hkind tokens

theorem delimitersOf_of_delimiter (h : token.kind = kind) (hkind : kind.delimiter? = some kind)
    (tokens : List Token) : delimitersOf (token :: tokens) = kind :: delimitersOf tokens := by
  rw [delimitersOf_cons, h, hkind]
  rfl

theorem Series.delimitersOf_eq_nil {α : Type} {derives : α → List Token → Prop} {values : List α}
    (h : Series derives values tokens) (hvalue : ∀ value tokens, derives value tokens → delimitersOf tokens = []) :
    delimitersOf tokens = [] := by
  induction h with
  | nil => rfl
  | cons hderives _ ih => rw [delimitersOf_append, hvalue _ _ hderives, ih, List.append_nil]

theorem Member.delimitersOf {name : Token} (h : Member name tokens) : delimitersOf tokens = [] := by
  obtain ⟨hdot, hname⟩ := h
  rw [delimitersOf_of_word hdot rfl, delimitersOf_of_kind hname rfl]
  rfl

theorem Derives.delimitersOf {phrase : Phrase} (h : Derives room phrase tokens) : delimitersOf tokens = [] := by
  induction h with
  | number hkind => exact delimitersOf_of_kind hkind rfl []
  | string hkind => exact delimitersOf_of_kind hkind rfl []
  | constant hkind => exact delimitersOf_of_kind hkind rfl []
  | reference hkind hmembers =>
      rw [delimitersOf_of_kind hkind rfl]
      exact hmembers.delimitersOf_eq_nil fun _ _ => Member.delimitersOf
  | group hopening _ hclosing hmembers _ ih =>
      rw [delimitersOf_of_word hopening rfl, delimitersOf_append, delimitersOf_of_word hclosing rfl, ih]
      exact hmembers.delimitersOf_eq_nil fun _ _ => Member.delimitersOf
  | answered hfirst hfiller hquestion hcall _ _ ih =>
      rw [delimitersOf_of_word hfirst rfl, delimitersOf_of_word hfiller rfl, delimitersOf_of_kind hquestion rfl,
        delimitersOf_of_kind hcall rfl, ih]
  | noLinks => rfl
  | link hkind _ _ _ ih ihLinks => rw [delimitersOf_of_kind hkind rfl, delimitersOf_append, ih, ihLinks]; rfl
  | operation _ _ _ ih ihLinks => rw [delimitersOf_append, ih, ihLinks]; rfl
  | bare _ ih => exact ih
  | assign _ hequals _ ih ihValue => rw [delimitersOf_append, delimitersOf_of_word hequals rfl, ih, ihValue]; rfl
  | noFurther => rfl
  | further hcomma _ _ ih ihAnswers => rw [delimitersOf_of_word hcomma rfl, delimitersOf_append, ih, ihAnswers]; rfl
  | noArguments hopening hclosing =>
      rw [delimitersOf_of_word hopening rfl, delimitersOf_of_word hclosing rfl]
      rfl
  | arguments hopening _ _ hclosing ih ihAnswers =>
      rw [delimitersOf_of_word hopening rfl, delimitersOf_append, delimitersOf_append,
        delimitersOf_of_word hclosing rfl, ih, ihAnswers]
      rfl

theorem Simple.delimitersOf {statement : SimpleStatement} (h : Simple room budget statement tokens) :
    delimitersOf tokens = [] := by
  cases h with
  | mk hexpr => exact hexpr.delimitersOf

theorem Condition.delimitersOf {statement : SimpleStatement} (h : Condition room budget statement tokens) :
    delimitersOf tokens = [] := by
  cases h with
  | mk hbar hstatement => rw [delimitersOf_of_word hbar rfl, hstatement.delimitersOf]

theorem Logic.delimitersOf {clause : Clause} (h : Logic .operation budget room clause tokens) :
    delimitersOf tokens = [] := by
  induction h with
  | simple hstatement => exact hstatement.delimitersOf
  | rule hfirst hname hcolon _ hconditions _ ih =>
      rw [delimitersOf_of_word hfirst rfl, delimitersOf_of_kind hname rfl, delimitersOf_of_word hcolon rfl,
        delimitersOf_append, hconditions.delimitersOf_eq_nil fun _ _ => Condition.delimitersOf, ih]
      rfl
  | action hfirst hname _ ih => rw [delimitersOf_of_word hfirst rfl, delimitersOf_of_kind hname rfl, ih]
  | conditionSet hfirst hname hcolon _ hconditions hlast =>
      rw [delimitersOf_of_word hfirst rfl, delimitersOf_of_kind hname rfl, delimitersOf_of_word hcolon rfl,
        delimitersOf_append, hconditions.delimitersOf_eq_nil fun _ _ => Condition.delimitersOf,
        delimitersOf_of_word hlast rfl]
      rfl
  | declaration hfirst hname =>
      rw [delimitersOf_of_word hfirst rfl, delimitersOf_of_kind hname rfl]
      rfl
  | definition hfirst hname hequals hvalue _ =>
      rw [delimitersOf_of_word hfirst rfl, delimitersOf_of_kind hname rfl, delimitersOf_of_word hequals rfl,
        hvalue.delimitersOf]
  | command hname _ _ _ harguments _ => rw [delimitersOf_of_kind hname rfl, harguments.delimitersOf]
  | evaluate hfirst htarget =>
      rw [delimitersOf_of_word hfirst rfl, delimitersOf_of_kind htarget rfl]
      rfl
  | perform hfirst htarget =>
      rw [delimitersOf_of_word hfirst rfl, delimitersOf_of_kind htarget rfl]
      rfl
  | unended _ ih => exact ih
  | ended _ hsemicolon ih => rw [delimitersOf_append, delimitersOf_of_word hsemicolon rfl, ih]; rfl
  | noStatements => rfl
  | statements _ _ ih ihStatements => rw [delimitersOf_append, ih, ihStatements]; rfl
  | block hopening _ hclosing ih =>
      rw [delimitersOf_of_word hopening rfl, delimitersOf_append, delimitersOf_of_word hclosing rfl, ih]
      rfl

/-- What stands between two marks of a pair is nested one level deeper. -/
theorem wellNested_between {depth : Nat} {opening closing : Token} {left right : TokenKind}
    (hopening : opening.kind = left) (hcloser : left.closer? = some right) (hclosing : closing.kind = right)
    (h : WellNested depth (delimitersOf tokens)) :
    WellNested (depth + 1) (delimitersOf (opening :: (tokens ++ [closing]))) := by
  have hleft : left.delimiter? = some left := by cases left <;> first | rfl | cases hcloser
  have hright : right.delimiter? = some right := by cases left <;> cases hcloser <;> rfl
  rw [delimitersOf_of_delimiter hopening hleft, delimitersOf_append, delimitersOf_of_delimiter hclosing hright]
  exact .pair hcloser h .nil

theorem Series.wellNested {α : Type} {derives : α → List Token → Prop} {values : List α} {depth : Nat}
    (h : Series derives values tokens)
    (hvalue : ∀ value tokens, derives value tokens → WellNested depth (delimitersOf tokens)) :
    WellNested depth (delimitersOf tokens) := by
  induction h with
  | nil => exact .nil
  | cons hderives _ ih =>
      rw [delimitersOf_append]
      exact (hvalue _ _ hderives).append ih

theorem Embedded.wellNested {statement : SimpleStatement} (h : Embedded budget room statement tokens) (depth : Nat) :
    WellNested (depth + 1) (delimitersOf tokens) := by
  cases h with
  | mk hopening hexpr _ hclosing => exact wellNested_between hopening rfl hclosing (hexpr.delimitersOf ▸ .nil)

theorem Attributed.wellNested {one : Attribute} (h : Attributed room budget one tokens) (depth : Nat) :
    WellNested (depth + 1) (delimitersOf tokens) := by
  cases h with
  | custom hname => exact delimitersOf_of_kind hname rfl [] ▸ .nil
  | bare hname => exact delimitersOf_of_kind hname rfl [] ▸ .nil
  | valued hname hequals hvalue =>
      rw [delimitersOf_of_kind hname rfl, delimitersOf_of_word hequals rfl]
      cases hvalue with
      | string hkind => exact delimitersOf_of_kind hkind rfl [] ▸ .nil
      | embedded hstatement => exact hstatement.wellNested depth

theorem Attributes.wellNested {left right : TokenKind} {attributes : List Attribute}
    (h : Attributes room budget left right attributes tokens) (hcloser : left.closer? = some right) (depth : Nat) :
    WellNested (depth + 2) (delimitersOf tokens) := by
  cases h with
  | mk hopening hattributes hclosing =>
      exact wellNested_between hopening hcloser hclosing (hattributes.wellNested fun _ _ h => h.wellNested depth)

theorem Textual.wellNested {part : TextPart} (h : Textual room budget part tokens) (depth : Nat) :
    WellNested (depth + 1) (delimitersOf tokens) := by
  cases h with
  | text hkind => exact delimitersOf_of_kind hkind rfl [] ▸ .nil
  | embedded hstatement => exact hstatement.wellNested depth

theorem Optional.wellNested {option : AnswerOption} (h : Optional room budget option tokens) :
    WellNested 2 (delimitersOf tokens) := by
  cases h with
  | mk hattributes htexts =>
      rw [← List.cons_append, delimitersOf_append]
      exact (hattributes.wellNested rfl 0).append (htexts.wellNested fun _ _ h => h.wellNested 1)

theorem Component.Derived.wellNested {next : Token} {component : Component}
    (h : Component.Derived .operation room budget next component tokens) : WellNested 2 (delimitersOf tokens) := by
  cases h with
  | heading hattributes => exact hattributes.wellNested rfl 0
  | question hattributes _ htexts hoptions =>
      rw [← List.cons_append, delimitersOf_append, delimitersOf_append]
      exact (hattributes.wellNested rfl 0).append
        ((htexts.wellNested fun _ _ h => h.wellNested 1).append (hoptions.wellNested fun _ _ => Optional.wellNested))
  | interlude hopening hstatements hclosing =>
      exact wellNested_between hopening rfl hclosing (hstatements.delimitersOf ▸ .nil)

/-- The delimiters of a document pair off, no more than two deep. -/
theorem Document.Derived.wellNested {document : Document} (h : document.Derived .operation room budget tokens) :
    WellNested 2 (delimitersOf tokens) := by
  unfold Document.Derived at h
  generalize document.components = components at h
  induction h with
  | nil hlast => exact delimitersOf_of_kind hlast rfl [] ▸ .nil
  | cons hcomponent _ ih =>
      rw [delimitersOf_append]
      exact hcomponent.wellNested.append ih

end

/-- Delimiters that pair off leave open what is open before them. -/
theorem WellNested.unclosed_append {depth : Nat} {kinds : List TokenKind} (h : WellNested depth kinds)
    (before : List TokenKind) : unclosed (before ++ kinds) = unclosed before := by
  induction h generalizing before with
  | nil => rw [List.append_nil]
  | @pair _ opening closing inner others hcloser _ _ ih ihOthers =>
      have hopens : opening.closes = false := by cases opening <;> first | rfl | cases hcloser
      have hcloses : closing.closes = true := by cases opening <;> cases hcloser <;> rfl
      have hsplit : before ++ opening :: (inner ++ closing :: others) =
          before ++ [opening] ++ inner ++ [closing] ++ others := by simp
      rw [hsplit, ihOthers, unclosed_concat_of_closes hcloses, ih, unclosed_concat_of_opens hopens, List.tail_cons]

end Questionnaire
