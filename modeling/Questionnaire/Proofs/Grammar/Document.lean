import Questionnaire.Proofs.Grammar.Statement
import Questionnaire.Proofs.Token.Layout

/-! The rules for components read what the grammar derives, and so do documents as a whole. One token ahead is enough
to tell a section from a question. -/

namespace Questionnaire

namespace Rule

open Questionnaire.Parser (Takes)

variable {α : Type} {room budget : Nat} {p q r : Parser} {inner : Rule Expr} {embedding : Rule SimpleStatement}
  {tokens rest : List Token}

theorem sound_embedded (hinner : SoundWithin room budget inner) :
    Sound room budget (Embedded budget room) (fun _ => 0) (embedded inner) := by
  intro p value r hroom h
  obtain ⟨below, p', q', rfl, hbelow, -, h, htakes⟩ := takes_of_bracketed h hroom
  obtain ⟨opening, p₁, hopening, hfirst, h⟩ := (expect_bind_eq_ok (by decide)).mp h
  obtain ⟨expr, p₂, hexpr, h⟩ := bind_eq_ok.mp h
  obtain ⟨closing, p₃, hclosing, hlast, h⟩ := (expect_bind_eq_ok (by decide)).mp h
  rw [spanSince_bind] at h
  obtain ⟨rfl, rfl⟩ := pure_eq_ok.mp h
  obtain ⟨p₄, q₄, hroom', hrule, hbudgeted⟩ := takes_of_budgeted hexpr (hfirst.hasRoom hbelow)
  obtain ⟨tokens, htokens, hderives⟩ := hinner below rfl _ _ _ hroom' hrule
  obtain ⟨hmiddle, hcharge⟩ := hbudgeted _ _ htokens
  rw [hlast.previous, List.getLastD_cons, List.getLastD_nil]
  exact ⟨_, htakes _ _ (hfirst.cons (hmiddle.trans hlast)), .mk hopening hderives hcharge hclosing⟩

theorem sound_attributeValue (h : Sound room budget (Embedded budget room) (fun _ => 0) embedding) :
    Sound room budget (Valued room budget) (fun _ => 0) (attributeValue embedding) := by
  intro p value q hroom hrule
  rw [attributeValue, current_bind] at hrule
  cases hkind : p.current.kind with
  | string =>
      simp only [hkind] at hrule
      obtain ⟨p₁, htakes, hpure⟩ := (shift_bind_eq_ok (by simp [hkind])).mp hrule
      obtain ⟨rfl, rfl⟩ := pure_eq_ok.mp hpure
      exact ⟨_, htakes, .string hkind⟩
  | embeddedOpen =>
      simp only [hkind] at hrule
      obtain ⟨statement, hstatement, rfl⟩ := map_eq_ok.mp hrule
      obtain ⟨tokens, htakes, hembedded⟩ := h _ _ _ hroom hstatement
      exact ⟨tokens, htakes, .embedded hembedded⟩
  | _ =>
      simp only [hkind] at hrule
      cases refuse_ne_ok hrule

theorem sound_oneAttribute (h : Sound room budget (Embedded budget room) (fun _ => 0) embedding) :
    Sound room budget (Attributed room budget) (fun _ => 0) (oneAttribute embedding) := by
  intro p value q hroom hrule
  rw [oneAttribute, current_bind] at hrule
  cases hkind : p.current.kind with
  | identifier =>
      simp only [hkind] at hrule
      obtain ⟨p₁, htakes, hpure⟩ := (shift_bind_eq_ok (by simp [hkind])).mp hrule
      obtain ⟨rfl, rfl⟩ := pure_eq_ok.mp hpure
      exact ⟨_, htakes, .custom hkind⟩
  | attributeKeyword =>
      simp only [hkind] at hrule
      obtain ⟨p₁, hfirst, hrule⟩ := (shift_bind_eq_ok (by simp [hkind])).mp hrule
      rcases (passWord_bind_eq_ok (by decide)).mp hrule with ⟨equals, p₂, hequals, hsecond, hrule⟩ | ⟨-, hrule⟩
      · rw [if_pos rfl] at hrule
        obtain ⟨_, p₃, hsome, hrule⟩ := bind_eq_ok.mp hrule
        obtain ⟨value, hvalue, rfl⟩ := map_eq_ok.mp hsome
        rw [spanSince_bind] at hrule
        obtain ⟨rfl, rfl⟩ := pure_eq_ok.mp hrule
        obtain ⟨tokens, htokens, hvalued⟩ :=
          sound_attributeValue h _ _ _ (hsecond.hasRoom (hfirst.hasRoom hroom)) hvalue
        have htakes := hfirst.cons (hsecond.cons htokens)
        rw [htakes.span_eq]
        exact ⟨_, htakes, .valued hkind hequals hvalued⟩
      · rw [if_neg (by decide)] at hrule
        obtain ⟨_, p₂, hnone, hrule⟩ := bind_eq_ok.mp hrule
        obtain ⟨rfl, rfl⟩ := pure_eq_ok.mp hnone
        rw [spanSince_bind] at hrule
        obtain ⟨rfl, rfl⟩ := pure_eq_ok.mp hrule
        rw [hfirst.span_eq]
        exact ⟨_, hfirst, .bare hkind⟩
  | _ =>
      simp only [hkind] at hrule
      cases refuse_ne_ok hrule

theorem attributed_ne_nil {value : Attribute} (h : Attributed room budget value tokens) : tokens ≠ [] := by
  cases h <;> simp

theorem sound_attributes (h : Sound room budget (Embedded budget room) (fun _ => 0) embedding)
    {left right : TokenKind} (hleft : left ≠ .endOfInput) (hright : right ≠ .endOfInput) :
    Sound room budget (Attributes room budget left right) (fun _ => 0) (attributes embedding left right) := by
  intro p values q hroom hrule
  obtain ⟨opening, p₁, hopening, hfirst, hrule⟩ := (expect_bind_eq_ok hleft).mp hrule
  obtain ⟨values, p₂, hvalues, hrule⟩ := bind_eq_ok.mp hrule
  obtain ⟨closing, p₃, hclosing, hlast, hrule⟩ := (expect_bind_eq_ok hright).mp hrule
  obtain ⟨rfl, rfl⟩ := pure_eq_ok.mp hrule
  have hrounds := soundRounds_until (fun token => token.kind = right) right.description
    (sound_oneAttribute h) (fun _ _ => attributed_ne_nil)
  obtain ⟨tokens, htokens, hseries⟩ := hrounds.sound_repeatWhile_free _ _ _ (hfirst.hasRoom hroom) hvalues
  exact ⟨_, hfirst.cons (htokens.trans hlast), .mk hopening hseries hclosing⟩

/-- The pieces of a text, one round each. -/
def textOffer (embedding : Rule SimpleStatement) (token : Token) : Option (Rule TextPart) :=
  match token.kind with
  | .textRun => some do
    shift
    return .text token
  | .embeddedOpen => some (TextPart.embedded <$> embedding)
  | _ => none

theorem soundRounds_text (h : Sound room budget (Embedded budget room) (fun _ => 0) embedding) :
    SoundRounds room budget (Textual room budget) (fun _ => 0) (textOffer embedding) := by
  intro p rule value q hroom hoffer hrule
  unfold textOffer at hoffer
  split at hoffer
  next hkind =>
    cases hoffer
    obtain ⟨p₁, htakes, hpure⟩ := (shift_bind_eq_ok (by simp [hkind])).mp hrule
    obtain ⟨rfl, rfl⟩ := pure_eq_ok.mp hpure
    exact ⟨_, _, htakes, .text hkind⟩
  next hkind =>
    cases hoffer
    obtain ⟨statement, hstatement, rfl⟩ := map_eq_ok.mp hrule
    obtain ⟨_, htakes, ⟨hopening, hexpr, hcharge, hclosing⟩⟩ := h _ _ _ hroom hstatement
    exact ⟨_, _, htakes, .embedded (.mk hopening hexpr hcharge hclosing)⟩
  next => cases hoffer

theorem sound_texts (h : Sound room budget (Embedded budget room) (fun _ => 0) embedding) :
    Sound room budget (Series (Textual room budget)) (fun _ => 0) (texts embedding) :=
  (soundRounds_text h).sound_repeatWhile_free

theorem exists_cons_of_attributes {left right : TokenKind} {values : List Attribute}
    (h : Attributes room budget left right values tokens) :
    ∃ first more, tokens = first :: more ∧ first.kind = left := by
  obtain ⟨hopening, _, _⟩ := h
  exact ⟨_, _, rfl, hopening⟩

theorem sound_answerOption (h : Sound room budget (Embedded budget room) (fun _ => 0) embedding) :
    Sound room budget (Optional room budget) (fun _ => 0) (answerOption embedding) := by
  intro p value q hroom hrule
  rw [answerOption, current_bind] at hrule
  obtain ⟨attributes, p₁, hattributes, hrule⟩ := bind_eq_ok.mp hrule
  obtain ⟨texts, p₂, htexts, hrule⟩ := bind_eq_ok.mp hrule
  rw [spanSince_bind] at hrule
  obtain ⟨rfl, rfl⟩ := pure_eq_ok.mp hrule
  obtain ⟨tokens, htokens, hderived⟩ := sound_attributes h (by decide) (by decide) _ _ _ hroom hattributes
  obtain ⟨rest, hrest, hseries⟩ := sound_texts h _ _ _ (htokens.hasRoom hroom) htexts
  obtain ⟨first, more, rfl, -⟩ := exists_cons_of_attributes hderived
  have htakes := htokens.trans hrest
  rw [htakes.current_eq, htakes.span_eq]
  exact ⟨_, htakes, .mk hderived hseries⟩

/-- The options of a question, one round each. -/
def optionOffer (embedding : Rule SimpleStatement) (token : Token) : Option (Rule AnswerOption) :=
  if token.kind = .endOfInput || opensComponent token then none else some (answerOption embedding)

theorem soundRounds_option (h : Sound room budget (Embedded budget room) (fun _ => 0) embedding) :
    SoundRounds room budget (Optional room budget) (fun _ => 0) (optionOffer embedding) := by
  intro p rule value q hroom hoffer hrule
  unfold optionOffer at hoffer
  by_cases hends : (p.current.kind = .endOfInput || opensComponent p.current) = true
  · rw [if_pos hends] at hoffer
    cases hoffer
  · rw [if_neg hends] at hoffer
    cases hoffer
    obtain ⟨_, htakes, ⟨hattributes, htexts⟩⟩ := sound_answerOption h _ _ _ hroom hrule
    exact ⟨_, _, htakes, .mk hattributes htexts⟩

theorem partition_isColumn (options : List AnswerOption) :
    options.partition AnswerOption.isColumn =
      (options.filter (·.isColumn), options.filter fun option => !option.isColumn) :=
  List.partition_eq_filter_filter

/-- The token after a component tells a section from a question. -/
theorem sound_question (h : Sound room budget (Embedded budget room) (fun _ => 0) embedding) {value : Component}
    (hroom : p.HasRoom room budget) (hrule : question embedding p = .ok value q) :
    ∃ tokens, p.Takes tokens 0 q ∧ Component.Derived .operation room budget q.current value tokens := by
  rw [question, current_bind] at hrule
  obtain ⟨attributes, p₁, hattributes, hrule⟩ := bind_eq_ok.mp hrule
  obtain ⟨tokens, htokens, hderived⟩ := sound_attributes h (by decide) (by decide) _ _ _ hroom hattributes
  obtain ⟨first, more, rfl, -⟩ := exists_cons_of_attributes hderived
  rw [current_bind] at hrule
  split at hrule
  next hopens =>
    rw [spanSince_bind] at hrule
    obtain ⟨rfl, rfl⟩ := pure_eq_ok.mp hrule
    rw [htokens.current_eq, htokens.span_eq]
    exact ⟨_, htokens, .heading hderived hopens⟩
  next hopens =>
    obtain ⟨texts, p₂, htexts, hrule⟩ := bind_eq_ok.mp hrule
    obtain ⟨options, p₃, hoptions, hrule⟩ := bind_eq_ok.mp hrule
    rw [partition_isColumn] at hrule
    dsimp only at hrule
    rw [spanSince_bind] at hrule
    obtain ⟨rfl, rfl⟩ := pure_eq_ok.mp hrule
    have hroom₁ := htokens.hasRoom hroom
    obtain ⟨textual, htextual, htextSeries⟩ := sound_texts h _ _ _ hroom₁ htexts
    obtain ⟨optional, hoptional, hoptionSeries⟩ :=
      (soundRounds_option h).sound_repeatWhile_free _ _ _ (htextual.hasRoom hroom₁) hoptions
    have hrest := htextual.trans hoptional
    have htakes := htokens.trans hrest
    have hnext : opensComponent ((textual ++ optional).headD p₃.current) = false := by
      rw [← hrest.current_eq_headD]
      simpa using hopens
    rw [htakes.current_eq, htakes.span_eq]
    exact ⟨_, htakes, .question hderived hnext htextSeries hoptionSeries⟩

theorem sound_interlude {statement : Rule Statement} {value : Component}
    (h : Sound room budget (fun value => Logic .operation budget room (.statement value)) (fun _ => 0) statement)
    (hroom : p.HasRoom room budget) (hrule : interlude statement p = .ok value q) :
    ∃ tokens, p.Takes tokens 0 q ∧ Component.Derived .operation room budget q.current value tokens := by
  obtain ⟨opening, p₁, hopening, hfirst, hrule⟩ := (expect_bind_eq_ok (by decide)).mp hrule
  obtain ⟨statements, p₂, hstatements, hrule⟩ := bind_eq_ok.mp hrule
  obtain ⟨closing, p₃, hclosing, hlast, hrule⟩ := (expect_bind_eq_ok (by decide)).mp hrule
  rw [spanSince_bind] at hrule
  obtain ⟨rfl, rfl⟩ := pure_eq_ok.mp hrule
  have hrounds := soundRounds_until (fun token => token.kind = .logicClose) TokenKind.logicClose.description h
    (fun _ _ => Logic.ne_nil)
  obtain ⟨tokens, htokens, hseries⟩ := hrounds.sound_repeatWhile_free _ _ _ (hfirst.hasRoom hroom) hstatements
  rw [hlast.previous, List.getLastD_cons, List.getLastD_nil]
  exact ⟨_, hfirst.cons (htokens.trans hlast), .interlude hopening (.statements_of_series hseries) hclosing⟩

theorem sound_component {value : Component} (hroom : p.HasRoom room budget)
    (hrule : component room p = .ok value q) :
    ∃ tokens, p.Takes tokens 0 q ∧ Component.Derived .operation room budget q.current value tokens := by
  rw [component, current_bind] at hrule
  cases hkind : p.current.kind with
  | questionOpen =>
      simp only [hkind] at hrule
      exact sound_question (sound_embedded (soundWithin_expression room budget)) hroom hrule
  | logicOpen =>
      simp only [hkind] at hrule
      exact sound_interlude (sound_statement room budget) hroom hrule
  | _ =>
      simp only [hkind] at hrule
      cases refuseUnexpected_ne_ok hrule

/-- The rule finds every derivation of an expression in a text. -/
def CompleteEmbedded (room budget : Nat) (embedding : Rule SimpleStatement) : Prop :=
  ∀ value tokens, Embedded budget room value tokens → Complete room budget tokens 0 (fun _ => True) embedding value

theorem completeEmbedded (room budget : Nat) : CompleteEmbedded room budget (embedded (expression room)) := by
  intro value tokens h
  cases h with
  | @mk below opening closing expr tokens hopening hexpr hcharge hclosing =>
      apply complete_bracketed
      intro p q hroom htakes _
      obtain ⟨p₁, hfirst, hrest⟩ := htakes.uncons
      obtain ⟨p₂, htokens, hlast⟩ := hrest.unsnoc
      have hends : p₂.current.EndsExpression := by
        rw [hlast.current_eq]
        exact Token.endsExpression_of_kind (by simp [hclosing]) (by simp [hclosing])
      have hfound : budgeted (expression (below + 1)) p₁ = .ok expr p₂ :=
        complete_budgeted hcharge (hexpr.complete budget) _ _ (hfirst.hasRoom hroom) htokens hends
      refine (expect_bind_eq_ok (by decide)).mpr ⟨opening, p₁, hopening, hfirst, ?_⟩
      refine bind_eq_ok.mpr ⟨expr, p₂, hfound, ?_⟩
      refine (expect_bind_eq_ok (by decide)).mpr ⟨closing, q, hclosing, hlast, ?_⟩
      rw [spanSince_bind, hlast.previous]
      exact pure_eq_ok.mpr ⟨rfl, rfl⟩

theorem embedded_starts {value : SimpleStatement} (h : Embedded budget room value tokens) :
    ∃ first ∈ tokens.head?, first.kind = .embeddedOpen := by
  obtain ⟨hopening, _, _, _⟩ := h
  exact ⟨_, rfl, hopening⟩

theorem complete_attributeValue (hembedding : CompleteEmbedded room budget embedding) {value : AttributeValue}
    (h : Valued room budget value tokens) :
    Complete room budget tokens 0 (fun _ => True) (attributeValue embedding) value := by
  intro p q hroom htakes _
  rw [attributeValue, current_bind]
  cases h with
  | string hkind =>
      rw [htakes.current_eq]
      simp only [hkind]
      exact shift_bind_of_takes (by simp [hkind]) htakes (pure_eq_ok.mpr ⟨rfl, rfl⟩)
  | embedded hstatement =>
      obtain ⟨first, hhead, hkind⟩ := embedded_starts hstatement
      rw [htakes.current_of_mem_head hhead]
      simp only [hkind]
      exact map_eq_ok.mpr ⟨_, hembedding _ _ hstatement _ _ hroom htakes trivial, rfl⟩

theorem complete_oneAttribute (hembedding : CompleteEmbedded room budget embedding) {value : Attribute}
    (h : Attributed room budget value tokens) :
    Complete room budget tokens 0 (fun token => token.spells .punctuation "=" = false) (oneAttribute embedding)
      value := by
  intro p q hroom htakes hends
  rw [oneAttribute, current_bind]
  cases h with
  | custom hname =>
      rw [htakes.current_eq]
      simp only [hname]
      exact shift_bind_of_takes (by simp [hname]) htakes (pure_eq_ok.mpr ⟨rfl, rfl⟩)
  | bare hname =>
      rw [htakes.current_eq]
      simp only [hname]
      apply shift_bind_of_takes (by simp [hname]) htakes
      refine (passWord_bind_eq_ok (by decide)).mpr (.inr ⟨hends, ?_⟩)
      rw [if_neg (by decide)]
      refine bind_eq_ok.mpr ⟨none, q, pure_eq_ok.mpr ⟨rfl, rfl⟩, ?_⟩
      rw [spanSince_bind, htakes.span_eq]
      exact pure_eq_ok.mpr ⟨rfl, rfl⟩
  | @valued name equals value _ hname hequals hvalue =>
      obtain ⟨p₁, hfirst, hrest⟩ := htakes.uncons
      obtain ⟨p₂, hsecond, hrest⟩ := hrest.uncons
      have hfound :=
        complete_attributeValue hembedding hvalue _ _ (hsecond.hasRoom (hfirst.hasRoom hroom)) hrest trivial
      rw [htakes.current_eq]
      simp only [hname]
      apply shift_bind_of_takes (by simp [hname]) hfirst
      refine (passWord_bind_eq_ok (by decide)).mpr (.inl ⟨equals, p₂, hequals, hsecond, ?_⟩)
      rw [if_pos rfl]
      refine bind_eq_ok.mpr ⟨some value, q, map_eq_ok.mpr ⟨value, hfound, rfl⟩, ?_⟩
      rw [spanSince_bind, htakes.span_eq]
      exact pure_eq_ok.mpr ⟨rfl, rfl⟩

theorem attributed_starts {value : Attribute} (h : Attributed room budget value tokens) :
    ∃ first ∈ tokens.head?, first.kind = .identifier ∨ first.kind = .attributeKeyword := by
  cases h with
  | custom hname => exact ⟨_, rfl, .inl hname⟩
  | bare hname => exact ⟨_, rfl, .inr hname⟩
  | valued hname => exact ⟨_, rfl, .inr hname⟩

theorem complete_attributes (hsound : Sound room budget (Embedded budget room) (fun _ => 0) embedding)
    (hembedding : CompleteEmbedded room budget embedding) {left right : TokenKind} (hleft : left ≠ .endOfInput)
    (hright : right ≠ .endOfInput) (hpunctuation : right ≠ .punctuation) (hidentifier : right ≠ .identifier)
    (hkeyword : right ≠ .attributeKeyword) {values : List Attribute}
    (h : Attributes room budget left right values tokens) :
    Complete room budget tokens 0 (fun _ => True) (attributes embedding left right) values := by
  obtain ⟨hopening, hseries, hclosing⟩ := h
  intro p q hroom htakes _
  obtain ⟨p₁, hfirst, hrest⟩ := htakes.uncons
  obtain ⟨p₂, htokens, hlast⟩ := hrest.unsnoc
  have hrounds := soundRounds_until (fun token => token.kind = right) right.description
    (sound_oneAttribute hsound) (fun _ _ => attributed_ne_nil)
  have hhead (value : Attribute) (tokens : List Token) (h : Attributed room budget value tokens) :
      ∀ first ∈ tokens.head?, first.spells .punctuation "=" = false := by
    obtain ⟨first, hhead, hkind⟩ := attributed_starts h
    intro other hother
    rw [hhead] at hother
    cases hother
    rcases hkind with hkind | hkind
    · exact Token.spells_eq_false_of_kind (by simp [hkind])
    · exact Token.spells_eq_false_of_kind (by simp [hkind])
  refine (expect_bind_eq_ok hleft).mpr ⟨_, p₁, hopening, hfirst, ?_⟩
  refine bind_eq_ok.mpr ⟨values, p₂, ?_, ?_⟩
  · rw [← hlast.current_eq] at hclosing
    refine hrounds.complete_repeatWhile_free _ ?_ hhead hseries _ _ (hfirst.hasRoom hroom) htokens
      ⟨Token.spells_eq_false_of_kind (by rw [hclosing]; exact hpunctuation), by rw [untilOffer, if_pos hclosing]⟩
    intro p value tokens q hroom hvalue htakes hends
    obtain ⟨first, hhead, hkind⟩ := attributed_starts hvalue
    refine ⟨_, ?_, complete_oneAttribute hembedding hvalue _ _ hroom htakes hends⟩
    rw [untilOffer, htakes.current_of_mem_head hhead]
    rcases hkind with hkind | hkind
    · rw [if_neg (by rw [hkind]; exact hidentifier.symm), if_neg (by simp [hkind])]
    · rw [if_neg (by rw [hkind]; exact hkeyword.symm), if_neg (by simp [hkind])]
  · exact (expect_bind_eq_ok hright).mpr ⟨_, q, hclosing, hlast, pure_eq_ok.mpr ⟨rfl, rfl⟩⟩

end Rule

/-- There is no more text. -/
def Token.EndsText (token : Token) : Prop := token.kind ≠ .textRun ∧ token.kind ≠ .embeddedOpen

/-- Either another component or nothing at all follows. -/
def Token.EndsComponent (token : Token) : Prop := Rule.opensComponent token = true ∨ token.kind = .endOfInput

theorem Token.EndsComponent.endsText {token : Token} (h : token.EndsComponent) : token.EndsText := by
  rcases h with h | h
  · rw [Rule.opensComponent, Bool.or_eq_true, beq_iff_eq, beq_iff_eq] at h
    rcases h with h | h
    · exact ⟨by simp [h], by simp [h]⟩
    · exact ⟨by simp [h], by simp [h]⟩
  · exact ⟨by simp [h], by simp [h]⟩

namespace Rule

open Questionnaire.Parser (Takes)

variable {room budget : Nat} {p q : Parser} {embedding : Rule SimpleStatement} {tokens : List Token}

theorem textOffer_eq_none {token : Token} (h : token.EndsText) : textOffer embedding token = none := by
  unfold textOffer
  split
  next hkind => exact absurd hkind h.1
  next hkind => exact absurd hkind h.2
  next => rfl

theorem complete_texts (hsound : Sound room budget (Embedded budget room) (fun _ => 0) embedding)
    (hembedding : CompleteEmbedded room budget embedding) {values : List TextPart}
    (h : Series (Textual room budget) values tokens) :
    Complete room budget tokens 0 Token.EndsText (texts embedding) values := by
  intro p q hroom htakes hends
  refine (soundRounds_text hsound).complete_repeatWhile_free (fun _ => True) ?_ (by simp) h _ _ hroom htakes
    ⟨trivial, textOffer_eq_none hends⟩
  intro p value tokens q hroom hvalue htakes _
  cases hvalue with
  | text hkind =>
      rw [htakes.current_eq]
      refine ⟨_, by simp only [textOffer, hkind]; rfl, ?_⟩
      exact shift_bind_of_takes (by simp [hkind]) htakes (pure_eq_ok.mpr ⟨rfl, rfl⟩)
  | embedded hstatement =>
      obtain ⟨first, hhead, hkind⟩ := embedded_starts hstatement
      rw [htakes.current_of_mem_head hhead]
      refine ⟨_, by simp only [textOffer, hkind]; rfl, ?_⟩
      exact map_eq_ok.mpr ⟨_, hembedding _ _ hstatement _ _ hroom htakes trivial, rfl⟩

theorem complete_answerOption (hsound : Sound room budget (Embedded budget room) (fun _ => 0) embedding)
    (hembedding : CompleteEmbedded room budget embedding) {value : AnswerOption}
    (h : Optional room budget value tokens) :
    Complete room budget tokens 0 Token.EndsText (answerOption embedding) value := by
  intro p q hroom htakes hends
  cases h with
  | @mk first values textParts tokens rest hattributes htexts =>
      have hwhole : p.Takes ((first :: tokens) ++ rest) 0 q := htakes
      obtain ⟨p₁, hfirst, hrest⟩ := hwhole.split_zero
      have hroom₁ := hfirst.hasRoom hroom
      have hfound := complete_attributes hsound hembedding (by decide) (by decide) (by decide) (by decide) (by decide)
        hattributes _ _ hroom hfirst trivial
      rw [answerOption, current_bind, htakes.current_eq]
      refine bind_eq_ok.mpr ⟨values, p₁, hfound, ?_⟩
      refine bind_eq_ok.mpr ⟨textParts, q, complete_texts hsound hembedding htexts _ _ hroom₁ hrest hends, ?_⟩
      rw [spanSince_bind, htakes.span_eq]
      exact pure_eq_ok.mpr ⟨rfl, rfl⟩

theorem optional_starts {value : AnswerOption} (h : Optional room budget value tokens) :
    ∃ first ∈ tokens.head?, first.kind = .optionOpen := by
  obtain ⟨hattributes, _⟩ := h
  obtain ⟨first, more, hcons, hkind⟩ := exists_cons_of_attributes hattributes
  cases hcons
  exact ⟨_, rfl, hkind⟩

theorem complete_options (hsound : Sound room budget (Embedded budget room) (fun _ => 0) embedding)
    (hembedding : CompleteEmbedded room budget embedding) {values : List AnswerOption}
    (h : Series (Optional room budget) values tokens) :
    Complete room budget tokens 0 Token.EndsComponent (repeatWhile (optionOffer embedding)) values := by
  have hhead (value : AnswerOption) (tokens : List Token) (h : Optional room budget value tokens) :
      ∀ first ∈ tokens.head?, first.EndsText := by
    obtain ⟨first, hhead, hkind⟩ := optional_starts h
    intro other hother
    rw [hhead] at hother
    cases hother
    exact ⟨by simp [hkind], by simp [hkind]⟩
  intro p q hroom htakes hends
  have hnone : optionOffer embedding q.current = none := by
    rw [optionOffer, if_pos (by simpa [Token.EndsComponent, or_comm] using hends)]
  refine (soundRounds_option hsound).complete_repeatWhile_free _ ?_ hhead h _ _ hroom htakes ⟨hends.endsText, hnone⟩
  intro p value tokens q hroom hvalue htakes hends
  obtain ⟨first, hhead, hkind⟩ := optional_starts hvalue
  refine ⟨_, ?_, complete_answerOption hsound hembedding hvalue _ _ hroom htakes hends⟩
  rw [optionOffer, htakes.current_of_mem_head hhead, if_neg (by simp [opensComponent, hkind])]

theorem complete_question (hsound : Sound room budget (Embedded budget room) (fun _ => 0) embedding)
    (hembedding : CompleteEmbedded room budget embedding) {values : List Attribute} {textParts : List TextPart}
    {options : List AnswerOption} {first : Token} {textual optional : List Token}
    (hattributes : Attributes room budget .questionOpen .questionClose values (first :: tokens))
    (htexts : Series (Textual room budget) textParts textual)
    (hoptions : Series (Optional room budget) options optional) (hroom : p.HasRoom room budget)
    (hnext : opensComponent ((textual ++ optional).headD q.current) = false) (hends : q.current.EndsComponent)
    (htakes : p.Takes (first :: (tokens ++ (textual ++ optional))) 0 q) :
    question embedding p = .ok (.question ⟨textParts, values, options.filter fun option => !option.isColumn,
      options.filter (·.isColumn), .over first (tokens ++ (textual ++ optional))⟩) q := by
  have hwhole : p.Takes ((first :: tokens) ++ (textual ++ optional)) 0 q := htakes
  obtain ⟨p₁, hfirst, hrest⟩ := hwhole.split_zero
  obtain ⟨p₂, htextual, hoptional⟩ := hrest.split_zero
  have hroom₁ := hfirst.hasRoom hroom
  have hroom₂ := htextual.hasRoom hroom₁
  have hfound := complete_attributes hsound hembedding (by decide) (by decide) (by decide) (by decide) (by decide)
    hattributes _ _ hroom hfirst trivial
  have hendsText : p₂.current.EndsText := by
    refine hoptional.current_of_head (hoptions.head fun value tokens h => ?_) hends.endsText
    obtain ⟨first, hhead, hkind⟩ := optional_starts h
    intro other hother
    rw [hhead] at hother
    cases hother
    exact ⟨by simp [hkind], by simp [hkind]⟩
  rw [← hrest.current_eq_headD] at hnext
  rw [question, current_bind, htakes.current_eq]
  refine bind_eq_ok.mpr ⟨values, p₁, hfound, ?_⟩
  rw [current_bind, hnext, if_neg (by decide)]
  refine bind_eq_ok.mpr ⟨textParts, p₂, complete_texts hsound hembedding htexts _ _ hroom₁ htextual hendsText, ?_⟩
  refine bind_eq_ok.mpr ⟨options, q, complete_options hsound hembedding hoptions _ _ hroom₂ hoptional hends, ?_⟩
  rw [partition_isColumn]
  dsimp only
  rw [spanSince_bind, htakes.span_eq]
  exact pure_eq_ok.mpr ⟨rfl, rfl⟩

theorem complete_interlude {statements : List Statement} {opening closing : Token}
    (hopening : opening.kind = .logicOpen)
    (hstatements : Logic .operation budget room (.statements statements) tokens) (hclosing : closing.kind = .logicClose)
    (hroom : p.HasRoom room budget) (htakes : p.Takes (opening :: (tokens ++ [closing])) 0 q) :
    interlude (statement (room + 1)) p = .ok (.interlude ⟨statements, ⟨opening, closing⟩⟩) q := by
  obtain ⟨p₁, hfirst, hrest⟩ := htakes.uncons
  obtain ⟨p₂, htokens, hlast⟩ := hrest.unsnoc
  have hroom₁ := hfirst.hasRoom hroom
  have hrounds := soundRounds_until (fun token => token.kind = .logicClose) TokenKind.logicClose.description
    (sound_statement room budget) (fun _ _ => Logic.ne_nil)
  have hcurrent : p₂.current.kind = .logicClose := by rw [hlast.current_eq, hclosing]
  have hends : p₂.current.EndsStatement :=
    Token.endsStatement_of_kind (by simp [hcurrent]) (by simp [hcurrent])
  have hloops := hstatements.complete _ TokenKind.logicClose.description p₁ p₂
    (fun token hstart => hstart.kind_ne_logicClose) hroom₁ htokens hends hcurrent
  refine (expect_bind_eq_ok (by decide)).mpr ⟨opening, p₁, hopening, hfirst, ?_⟩
  refine bind_eq_ok.mpr ⟨statements, p₂, (hrounds.repeatWhile_eq_ok hroom₁).mpr hloops, ?_⟩
  refine (expect_bind_eq_ok (by decide)).mpr ⟨closing, q, hclosing, hlast, ?_⟩
  rw [spanSince_bind, hlast.previous]
  exact pure_eq_ok.mpr ⟨rfl, rfl⟩

theorem component_starts {next : Token} {value : Component}
    (h : Component.Derived .operation room budget next value tokens) :
    ∃ first more, tokens = first :: more ∧ opensComponent first = true := by
  cases h with
  | heading hattributes =>
      obtain ⟨_, _, hcons, hkind⟩ := exists_cons_of_attributes hattributes
      cases hcons
      exact ⟨_, _, rfl, by rw [opensComponent, hkind]; rfl⟩
  | question hattributes =>
      obtain ⟨_, _, hcons, hkind⟩ := exists_cons_of_attributes hattributes
      cases hcons
      exact ⟨_, _, rfl, by rw [opensComponent, hkind]; rfl⟩
  | interlude hopening => exact ⟨_, _, rfl, by rw [opensComponent, hopening]; rfl⟩

theorem complete_component {value : Component} (h : Component.Derived .operation room budget q.current value tokens)
    (hroom : p.HasRoom room budget) (hends : q.current.EndsComponent) (htakes : p.Takes tokens 0 q) :
    component room p = .ok value q := by
  have hsound := sound_embedded (soundWithin_expression room budget)
  have hembedding := completeEmbedded room budget
  rw [component, current_bind]
  cases h with
  | @heading first values tokens hattributes hnext =>
      obtain ⟨_, _, hcons, hkind⟩ := exists_cons_of_attributes hattributes
      cases hcons
      have hfound := complete_attributes hsound hembedding (by decide) (by decide) (by decide) (by decide) (by decide)
        hattributes _ _ hroom htakes trivial
      rw [htakes.current_eq]
      simp only [hkind]
      rw [question, current_bind, htakes.current_eq]
      refine bind_eq_ok.mpr ⟨values, q, hfound, ?_⟩
      rw [current_bind, if_pos hnext, spanSince_bind, htakes.span_eq]
      exact pure_eq_ok.mpr ⟨rfl, rfl⟩
  | question hattributes hnext htexts hoptions =>
      obtain ⟨_, _, hcons, hkind⟩ := exists_cons_of_attributes hattributes
      cases hcons
      rw [htakes.current_eq]
      simp only [hkind]
      exact complete_question hsound hembedding hattributes htexts hoptions hroom hnext hends htakes
  | interlude hopening hstatements hclosing =>
      rw [htakes.current_eq]
      simp only [hopening]
      exact complete_interlude hopening hstatements hclosing hroom htakes

/-- The components of a document, one round each. -/
def componentOffer (maxNesting : Nat) (token : Token) : Option (Rule Component) :=
  if token.kind = .endOfInput then none else some (component maxNesting)

theorem componentOffer_of_opens {maxNesting : Nat} {token : Token} (h : opensComponent token = true) :
    componentOffer maxNesting token = some (component maxNesting) := by
  rw [componentOffer, if_neg]
  intro hkind
  rw [opensComponent, hkind] at h
  cases h

theorem soundRounds_component :
    SoundRounds room budget (fun value tokens => ∃ next, Component.Derived .operation room budget next value tokens)
      (fun _ => 0) (componentOffer room) := by
  intro p rule value q hroom hoffer hrule
  unfold componentOffer at hoffer
  split at hoffer
  next => cases hoffer
  next =>
    cases hoffer
    obtain ⟨tokens, htakes, hderived⟩ := sound_component hroom hrule
    obtain ⟨first, more, rfl, -⟩ := component_starts hderived
    exact ⟨first, more, htakes, _, hderived⟩

theorem components_starts {values : List Component} {first : Token} {more : List Token}
    (h : Components .operation room budget values (first :: more)) : first.EndsComponent := by
  generalize htokens : first :: more = tokens at h
  cases h with
  | nil hlast =>
      cases htokens
      exact .inr hlast
  | cons hcomponent =>
      obtain ⟨_, _, rfl, hopens⟩ := component_starts hcomponent
      cases htokens
      exact .inl hopens

/-- The loop over components takes what a document is derived from, up to the end of input. -/
theorem loops_component_iff {values : List Component} (hroom : p.HasRoom room budget) :
    Loops (componentOffer room) p values q ↔
      ∃ tokens, p.Takes tokens 0 q ∧ Components .operation room budget values (tokens ++ [q.current]) := by
  constructor
  · intro h
    induction h with
    | @done p hoffer =>
        refine ⟨[], Takes.refl p, .nil ?_⟩
        by_contra hkind
        rw [componentOffer, if_neg hkind] at hoffer
        cases hoffer
    | @round p q r rule value values hoffer hround _ ih =>
        unfold componentOffer at hoffer
        split at hoffer
        next => cases hoffer
        next =>
          cases hoffer
          obtain ⟨tokens, htakes, hcomponent⟩ := sound_component hroom hround
          obtain ⟨rest, hrest, hcomponents⟩ := ih (htakes.hasRoom hroom)
          refine ⟨tokens ++ rest, htakes.trans hrest, ?_⟩
          rw [hrest.current_eq_headD] at hcomponent
          rw [List.append_assoc]
          cases rest with
          | nil => exact .cons hcomponent hcomponents
          | cons next rest => exact .cons hcomponent hcomponents
  · rintro ⟨tokens, htakes, hcomponents⟩
    generalize hwhole : tokens ++ [q.current] = whole at hcomponents
    induction hcomponents generalizing p tokens with
    | @nil last hlast =>
        have hsplit : tokens ++ [q.current] = [] ++ [last] := hwhole
        obtain ⟨rfl, hcurrent⟩ := List.append_inj' hsplit rfl
        obtain rfl := htakes.unique (Takes.refl p)
        cases hcurrent
        exact .done (by rw [componentOffer, if_pos hlast])
    | @cons value values next stretch rest hcomponent hcomponents ih =>
        obtain ⟨others, last, hothers⟩ := (List.eq_nil_or_concat (next :: rest)).resolve_left (by simp)
        rw [List.concat_eq_append] at hothers
        rw [hothers, ← List.append_assoc] at hwhole
        obtain ⟨rfl, hcurrent⟩ := List.append_inj' hwhole rfl
        cases hcurrent
        obtain ⟨p₁, hfirst, hrest⟩ := htakes.split_zero
        have hnext : p₁.current = next := by
          rw [hrest.current_eq_headD]
          have := congrArg (fun tokens => tokens.headD q.current) hothers
          cases others with
          | nil => exact this.symm
          | cons => exact this.symm
        rw [← hnext] at hcomponent
        have hends : p₁.current.EndsComponent := by
          rw [hnext]
          exact components_starts hcomponents
        refine .round ?_ (complete_component hcomponent hroom hends hfirst)
          (ih (hfirst.hasRoom hroom) _ hrest hothers.symm)
        obtain ⟨first, more, rfl, hopens⟩ := component_starts hcomponent
        rw [hfirst.current_eq]
        exact componentOffer_of_opens hopens

end Rule

end Questionnaire
