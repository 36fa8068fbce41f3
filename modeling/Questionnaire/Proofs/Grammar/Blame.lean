import Questionnaire.Proofs.Grammar.Acceptance
import Questionnaire.Proofs.Grammar.Naturality
import Questionnaire.Proofs.Grammar.Viable
import Questionnaire.Proofs.Token.Numbers

/-! Whom a fault of the grammar blames. No rule for a component takes a token that it has to turn down later either, so
that the tokens before the one that is blamed always begin some document. The one that is blamed rules all documents
out, whatever comes after it. -/

namespace Questionnaire

/-- The end of input, to go on with. -/
def Token.ending : Token := .standIn .endOfInput ""

section

variable {room budget : Nat}

theorem Optional.exists_of_attributes {attributes : List Attribute} {texts : List TextPart} {tokens rest : List Token}
    (hattributes : Attributes room budget .optionOpen .optionClose attributes tokens)
    (htexts : Series (Textual room budget) texts rest) :
    ∃ option, Optional room budget option (tokens ++ rest) := by
  obtain ⟨first, more, rfl, -⟩ := Rule.exists_cons_of_attributes hattributes
  exact ⟨_, .mk hattributes htexts⟩

theorem Textual.head_opensComponent {text : TextPart} {tokens : List Token} (h : Textual room budget text tokens) :
    ∀ first ∈ tokens.head?, Rule.opensComponent first = false := by
  intro first hfirst
  cases h with
  | text hkind =>
      cases hfirst
      rw [Rule.opensComponent, hkind]
      rfl
  | embedded hstatement =>
      obtain ⟨other, hhead, hkind⟩ := Rule.embedded_starts hstatement
      rw [hhead] at hfirst
      cases hfirst
      rw [Rule.opensComponent, hkind]
      rfl

theorem Optional.head_opensComponent {option : AnswerOption} {tokens : List Token}
    (h : Optional room budget option tokens) : ∀ first ∈ tokens.head?, Rule.opensComponent first = false := by
  intro first hfirst
  obtain ⟨other, hhead, hkind⟩ := Rule.optional_starts h
  rw [hhead] at hfirst
  cases hfirst
  rw [Rule.opensComponent, hkind]
  rfl

/-- What is within a question begins no other component. -/
theorem opensComponent_headD {texts : List TextPart} {options : List AnswerOption} {textual optional : List Token}
    {next : Token} (htexts : Series (Textual room budget) texts textual)
    (hoptions : Series (Optional room budget) options optional) (hnext : Rule.opensComponent next = false) :
    Rule.opensComponent ((textual ++ optional).headD next) = false := by
  cases textual with
  | cons first more => exact htexts.head (fun _ _ => Textual.head_opensComponent) first rfl
  | nil =>
      cases optional with
      | cons first more => exact hoptions.head (fun _ _ => Optional.head_opensComponent) first rfl
      | nil => exact hnext

namespace Component.Derived

variable {next other : Token} {value : Component} {tokens : List Token}

/-- The next token matters only as one that begins a component or not. -/
theorem of_next (h : Component.Derived .operation room budget next value tokens)
    (hother : Rule.opensComponent other = Rule.opensComponent next) :
    Component.Derived .operation room budget other value tokens := by
  cases h with
  | heading hattributes hnext => exact .heading hattributes (hother.trans hnext)
  | @question _ _ _ _ _ textual optional hattributes hnext htexts hoptions =>
      refine .question hattributes ?_ htexts hoptions
      cases htokens : textual ++ optional with
      | nil =>
          rw [htokens] at hnext
          exact hother.trans hnext
      | cons first more =>
          rw [htokens] at hnext
          exact hnext
  | interlude hopening hstatements hclosing => exact .interlude hopening hstatements hclosing

theorem exists_question {attributes : List Attribute} {texts : List TextPart} {options : List AnswerOption}
    {textual optional : List Token}
    (hattributes : Attributes room budget .questionOpen .questionClose attributes tokens)
    (htexts : Series (Textual room budget) texts textual) (hoptions : Series (Optional room budget) options optional) :
    ∃ value, Component.Derived .operation room budget .ending value (tokens ++ (textual ++ optional)) := by
  obtain ⟨first, more, rfl, -⟩ := Rule.exists_cons_of_attributes hattributes
  exact ⟨_, .question hattributes (opensComponent_headD htexts hoptions rfl) htexts hoptions⟩

end Component.Derived

end

namespace Rule

variable {room budget : Nat} {p : Parser} {embedding : Rule SimpleStatement}

theorem viable_embedded : Viable room budget (Embedded budget room) (fun _ => 0) (embedded (expression room)) := by
  intro p hready
  refine recovers_bracketed hready fun below p' hbelow hready' _ => ?_
  subst hbelow
  let closing := Token.standIn .embeddedClose "\x7d"
  have hclosing : closing.kind = .embeddedClose := rfl
  refine recovers_expect_bind hready'.isSealed (by decide) ?_ fun opening p₁ hopening hfirst => ?_
  · have hopening := Token.kind_standIn .embeddedOpen "$\x7b"
    exact exists_completes_free _ (.mk hopening .expression_anyName (Nat.zero_le _) hclosing) rfl
  have hready₁ := hready'.takes hfirst (Nat.le_refl _) (Nat.zero_le _)
  refine ((viable_expression below budget).budgeted).recovers_bind ((sound_expression below budget).budgeted) hready₁ ?_
    fun expr tokens p₂ hexpr htakes => ?_
  · rintro taken rest ⟨expr, ⟨hexpr, hcharge⟩, -⟩
    exact exists_completes_free (rest ++ [closing]) (.mk hopening hexpr hcharge hclosing) (by simp)
  · have hsealed₂ := hready₁.isSealed.takes htakes
    refine recovers_expect_bind hsealed₂ (by decide) ?_ fun _ _ _ _ => recovers_spanSince
    exact exists_completes_free [closing] (.mk hopening hexpr.1 hexpr.2 hclosing) (by simp)

section

variable (hsound : Sound room budget (Embedded budget room) (fun _ => 0) embedding)
  (h : Viable room budget (Embedded budget room) (fun _ => 0) embedding)

include h

theorem viable_attributeValue : Viable room budget (Valued room budget) (fun _ => 0) (attributeValue embedding) := by
  intro p hready
  have hstring := Token.kind_standIn .string ""
  refine recovers_current_bind ?_
  cases hkind : p.current.kind with
  | string => exact recovers_shift_bind hready.isSealed (by simp [hkind]) fun _ _ => recovers_pure
  | embeddedOpen =>
      refine recovers_map ((h p hready).mono ?_)
      rintro taken rest ⟨statement, hstatement, -⟩
      exact exists_completes_free rest (.embedded hstatement) rfl
  | _ => exact recovers_refuse _ (exists_completes_free _ (.string hstring) rfl)

theorem viableRounds_text : ViableRounds room budget (Textual room budget) (fun _ => 0) (textOffer embedding) := by
  intro p rule hready hoffer
  unfold textOffer at hoffer
  split at hoffer
  next hkind =>
    cases hoffer
    exact recovers_shift_bind hready.isSealed (by simp [hkind]) fun _ _ => recovers_pure
  next =>
    cases hoffer
    refine recovers_map ((h p hready).mono ?_)
    rintro taken rest ⟨statement, hstatement, -⟩
    exact exists_completes_free rest (.embedded hstatement) rfl
  next => cases hoffer

include hsound

theorem viable_texts : Viable room budget (Series (Textual room budget)) (fun _ => 0) (texts embedding) :=
  (viableRounds_text h).viable_repeatWhile_free (soundRounds_text hsound)

theorem viable_oneAttribute : Viable room budget (Attributed room budget) (fun _ => 0) (oneAttribute embedding) := by
  intro p hready
  have hname : Token.anyName.kind = .identifier := rfl
  refine recovers_current_bind ?_
  cases hkind : p.current.kind with
  | identifier => exact recovers_shift_bind hready.isSealed (by simp [hkind]) fun _ _ => recovers_pure
  | attributeKeyword =>
      refine recovers_shift_bind hready.isSealed (by simp [hkind]) fun p₁ htakes₁ => ?_
      have hready₁ := hready.takes_free htakes₁
      refine recovers_passWord_bind hready₁.isSealed (by decide) (fun equals p₂ hequals htakes₂ => ?_) ?_
      · have hready₂ := hready₁.takes_free htakes₂
        rw [if_pos rfl]
        refine recovers_bind (recovers_map ((viable_attributeValue h p₂ hready₂).mono ?_)) fun _ q hrule => ?_
        · rintro taken rest ⟨value, hvalue, -⟩
          exact exists_completes_free rest (.valued hkind hequals hvalue) rfl
        · obtain ⟨value, hvalue, -⟩ := map_eq_ok.mp hrule
          obtain ⟨tokens, htakes, -⟩ := sound_attributeValue hsound p₂ value q hready₂.hasRoom hvalue
          exact ⟨tokens, _, htakes, recovers_spanSince⟩
      · rw [if_neg (by decide)]
        exact recovers_pure_bind recovers_spanSince
  | _ => exact recovers_refuse _ (exists_completes_free _ (.custom hname) rfl)

theorem viable_attributes {left right : TokenKind} (hleft : left ≠ .endOfInput) (hright : right ≠ .endOfInput) :
    Viable room budget (Attributes room budget left right) (fun _ => 0) (attributes embedding left right) := by
  intro p hready
  let closing := Token.standIn right right.description
  have hname : Token.anyName.kind = .identifier := rfl
  have hclosing : closing.kind = right := rfl
  refine recovers_expect_bind hready.isSealed hleft ?_ fun opening p₁ hopening hfirst => ?_
  · exact exists_completes_free _ (.mk (Token.kind_standIn left "") .nil hclosing) rfl
  refine (viable_oneAttribute hsound h).recovers_until (fun token => token.kind = right) right.description
    (sound_oneAttribute hsound) (fun _ _ => attributed_ne_nil) (exists_completes_free _ (.custom hname) rfl)
    (hready.takes_free hfirst) (fun values taken rest hseries => ?_) fun values tokens p₂ hsealed₂ hrest => ?_
  · exact exists_completes_free (rest ++ [closing]) (.mk hopening hseries hclosing) (by simp)
  · exact recovers_expect_bind hsealed₂ hright hrest fun _ _ _ _ => recovers_pure

theorem viable_answerOption : Viable room budget (Optional room budget) (fun _ => 0) (answerOption embedding) := by
  intro p hready
  refine recovers_current_bind ?_
  have hsounds := @sound_attributes _ _ _ hsound .optionOpen .optionClose (by decide) (by decide)
  have hattributes := @viable_attributes _ _ _ hsound h .optionOpen .optionClose (by decide) (by decide)
  refine hattributes.recovers_bind hsounds hready ?_ fun values tokens p₁ hvalues htakes => ?_
  · rintro taken rest ⟨values, hvalues, -⟩
    obtain ⟨option, hoption⟩ := Optional.exists_of_attributes hvalues .nil
    exact exists_completes_free rest hoption (by simp)
  · have hready₁ := hready.takes_free htakes
    refine (viable_texts hsound h).recovers_bind (sound_texts hsound) hready₁ ?_ fun _ _ _ _ _ => recovers_spanSince
    rintro taken rest ⟨texts, htexts, -⟩
    obtain ⟨option, hoption⟩ := Optional.exists_of_attributes hvalues htexts
    exact exists_completes_free rest hoption (by simp)

theorem viableRounds_option :
    ViableRounds room budget (Optional room budget) (fun _ => 0) (optionOffer embedding) := by
  intro p rule hready hoffer
  unfold optionOffer at hoffer
  split at hoffer
  next => cases hoffer
  next =>
    cases hoffer
    exact viable_answerOption hsound h p hready

end

/-- The rest completes one component, if nothing comes after it. -/
def CompletesComponent (room budget : Nat) (taken rest : List Token) : Prop :=
  ∃ value, Component.Derived .operation room budget .ending value (taken ++ rest)

section

variable (hsound : Sound room budget (Embedded budget room) (fun _ => 0) embedding)
  (h : Viable room budget (Embedded budget room) (fun _ => 0) embedding)

include hsound h

theorem recovers_question (hready : p.Ready room budget 0) :
    Recovers (question embedding) p (CompletesComponent room budget) := by
  refine recovers_current_bind ?_
  have hsounds := @sound_attributes _ _ _ hsound .questionOpen .questionClose (by decide) (by decide)
  have hattributes := @viable_attributes _ _ _ hsound h .questionOpen .questionClose (by decide) (by decide)
  refine hattributes.recovers_bind hsounds hready ?_ fun values tokens p₁ hvalues htakes => ?_
  · rintro taken rest ⟨values, hvalues, -⟩
    obtain ⟨value, hvalue⟩ := Component.Derived.exists_question hvalues .nil .nil
    exact ⟨rest, value, by simpa using hvalue⟩
  refine recovers_current_bind ?_
  split
  next => exact recovers_spanSince
  next =>
    have hready₁ := hready.takes_free htakes
    refine (viable_texts hsound h).recovers_bind (sound_texts hsound) hready₁ ?_
      fun texts textual p₂ htexts htextual => ?_
    · rintro taken rest ⟨texts, htexts, -⟩
      obtain ⟨value, hvalue⟩ := Component.Derived.exists_question hvalues htexts .nil
      exact ⟨rest, value, by simpa using hvalue⟩
    · have hready₂ := hready₁.takes_free htextual
      have hoptions := (viableRounds_option hsound h).viable_repeatWhile_free (soundRounds_option hsound)
      refine hoptions.recovers_bind ((soundRounds_option hsound).sound_repeatWhile_free) hready₂ ?_ fun _ _ _ _ _ => ?_
      · rintro taken rest ⟨options, hoptions, -⟩
        obtain ⟨value, hvalue⟩ := Component.Derived.exists_question hvalues htexts hoptions
        exact ⟨rest, value, by simpa using hvalue⟩
      · exact recovers_spanSince

end

theorem recovers_interlude (hready : p.Ready room budget 0) :
    Recovers (interlude (statement (room + 1))) p (CompletesComponent room budget) := by
  let closing := Token.standIn .logicClose "%>"
  have hclosing : closing.kind = .logicClose := rfl
  refine recovers_expect_bind hready.isSealed (by decide) ?_ fun opening p₁ hopening hfirst => ?_
  · exact ⟨_, _, .interlude (Token.kind_standIn .logicOpen "<%") .noStatements hclosing⟩
  refine (viable_statement room budget).recovers_until (fun token => token.kind = .logicClose)
    TokenKind.logicClose.description (sound_statement room budget) (fun _ _ => Logic.ne_nil)
    (exists_completes_free _ .statement_anyName rfl) (hready.takes_free hfirst)
    (fun statements taken rest hseries => ?_) fun statements tokens p₂ hsealed₂ hrest => ?_
  · have hcomponent : Component.Derived .operation room budget .ending _ _ :=
      .interlude hopening (.statements_of_series hseries) hclosing
    exact ⟨rest ++ [closing], _, by simpa using hcomponent⟩
  · exact recovers_expect_bind hsealed₂ (by decide) hrest fun _ _ _ _ => recovers_spanSince

/-- The rest completes the components that are left, and begins a component only where the token ahead does. -/
def CompletesComponents (room budget : Nat) (p : Parser) (taken rest : List Token) : Prop :=
  ∃ components next more, taken ++ rest = next :: more ∧ opensComponent next = opensComponent p.current ∧
    Components .operation room budget components (next :: more)

theorem completesComponents_of_component {taken rest : List Token} (h : CompletesComponent room budget taken rest)
    (hcurrent : opensComponent p.current = true) : ∃ rest, CompletesComponents room budget p taken rest := by
  obtain ⟨value, hvalue⟩ := h
  have hcomponents : Components .operation room budget [value] _ :=
    .cons hvalue (.nil (rfl : Token.ending.kind = .endOfInput))
  obtain ⟨first, more, htokens, hfirst⟩ := component_starts hvalue
  refine ⟨rest ++ [.ending], [value], first, more ++ [.ending], ?_, hfirst.trans hcurrent.symm, ?_⟩
  · rw [← List.append_assoc, htokens]
    rfl
  · rwa [htokens] at hcomponents

theorem recovers_component (hready : p.Ready room budget 0) :
    Recovers (component room) p (CompletesComponents room budget p) := by
  have hending (hcurrent : opensComponent p.current = false) : ∃ rest, CompletesComponents room budget p [] rest :=
    ⟨[.ending], [], .ending, [], rfl, hcurrent.symm, .nil rfl⟩
  refine recovers_current_bind ?_
  cases hkind : p.current.kind with
  | questionOpen =>
      have hsound := sound_embedded (soundWithin_expression room budget)
      exact (recovers_question hsound viable_embedded hready).mono fun taken rest hrest =>
        completesComponents_of_component hrest (by simp [opensComponent, hkind])
  | logicOpen =>
      exact (recovers_interlude hready).mono fun taken rest hrest =>
        completesComponents_of_component hrest (by simp [opensComponent, hkind])
  | _ => exact recovers_refuseUnexpected (hending (by simp [opensComponent, hkind]))

theorem recovers_components (hready : p.Ready room budget 0) :
    Recovers (repeatWhile (componentOffer room)) p (CompletesComponents room budget p) := by
  refine recovers_repeatWhile (I := fun p => p.Ready room budget 0) ?_ ?_ hready
  · intro p rule hready hoffer
    unfold componentOffer at hoffer
    split at hoffer
    next => cases hoffer
    next =>
      cases hoffer
      exact recovers_component hready
  · intro p rule value q hready hoffer hrule
    unfold componentOffer at hoffer
    split at hoffer
    next => cases hoffer
    next =>
      cases hoffer
      obtain ⟨tokens, htakes, hderived⟩ := sound_component hready.hasRoom hrule
      refine ⟨tokens, 0, htakes, hready.takes_free htakes, ?_⟩
      rintro taken rest ⟨components, next, more, hrest, hnext, hcomponents⟩
      -- the component was read before another token, which told a section from a question as the one to come does
      obtain ⟨first, others, rfl, hfirst⟩ := component_starts hderived
      refine ⟨value :: components, first, others ++ next :: more, ?_, ?_, .cons (hderived.of_next hnext) hcomponents⟩
      · rw [List.append_assoc, hrest]
        rfl
      · rw [htakes.current_eq]

theorem exists_split_of_stream {tokens taken : List Token} {q : Parser}
    (h : tokens.map .ok = taken.map .ok ++ q.stream) :
    ∃ after, tokens = taken ++ q.current :: after ∧ q.items = after.map .ok := by
  obtain ⟨before, others, rfl, hbefore, hothers⟩ := List.map_eq_append_iff.mp h
  obtain rfl : before = taken := List.map_injective_iff.mpr (fun _ _ => Except.ok.inj) hbefore
  obtain ⟨current, after, rfl, hcurrent, hafter⟩ := List.map_eq_cons_iff.mp hothers
  obtain rfl : current = q.current := Except.ok.inj hcurrent
  exact ⟨after, rfl, hafter.symm⟩

/-- Where the reading of a document stops, some document begins with the tokens taken. -/
theorem document_eq_error {limits : Limits} {tokens : List Token} {diagnostic : Diagnostic} {q : Parser}
    (hlast : ∃ before last, tokens = before ++ [last] ∧ last.kind = .endOfInput)
    (hnumbers : ∀ token ∈ tokens, token.kind = .number → (Double.read? token.text.toList).isSome = true)
    (hnesting : tokens.length ≤ limits.maxNesting) (hdepth : tokens.length ≤ limits.maxExpressionDepth)
    (h : document limits.maxNesting (.ofItems limits (tokens.map .ok)) = .error diagnostic q) :
    diagnostic.position = q.current.position ∧
      ∃ (before after rest : List Token) (document : Document), tokens = before ++ q.current :: after ∧
        q.items = after.map .ok ∧
        document.Derived .operation limits.maxNesting limits.maxExpressionDepth (before ++ rest) := by
  obtain ⟨before, last, hsplit, hkind⟩ := hlast
  obtain ⟨first, others, rfl⟩ : ∃ first others, tokens = first :: others :=
    List.exists_cons_of_ne_nil (by simp [hsplit])
  let p : Parser := ⟨limits, others.map .ok, first, Parser.placeholder, true, 0, 0⟩
  have hstream : p.stream = (first :: others).map .ok := rfl
  have hready : p.Ready limits.maxNesting limits.maxExpressionDepth 0 := by
    rw [List.length_cons] at hnesting hdepth
    refine ⟨⟨Nat.zero_add _, rfl⟩, ?_, ?_, ⟨before, last, by rw [hstream, hsplit], hkind⟩, fun token htoken => ?_⟩
    · rw [List.length_map]
      omega
    · have hlinks : p.links = 0 := rfl
      rw [List.length_map]
      omega
    · rw [hstream] at htoken
      obtain ⟨_, hmem, heq⟩ := List.mem_map.mp htoken
      cases heq
      exact hnumbers token hmem
  have hdocument : document limits.maxNesting (.ofItems limits ((first :: others).map .ok)) =
      (repeatWhile (componentOffer limits.maxNesting) >>= fun components => pure (Document.mk components)) p := rfl
  rw [hdocument] at h
  obtain ⟨hposition, taken, rest, htaken, components, next, more, hrest, -, hcomponents⟩ :=
    recovers_bind_pure (recovers_components hready) diagnostic q h
  obtain ⟨after, hwhole, hafter⟩ := exists_split_of_stream (hstream ▸ htaken)
  refine ⟨hposition, taken, after, rest, ⟨components⟩, hwhole, hafter, ?_⟩
  rwa [Document.Derived, hrest]

end Rule

namespace Document

variable {limits : Limits} {source : String} {tokens : List Token} {diagnostic : Diagnostic}

theorem document_eq_error_of_parse (htokens : tokenize source = .ok tokens)
    (h : Document.parse limits source = .error diagnostic) :
    ∃ q, Rule.document limits.maxNesting (.ofItems limits (tokens.map .ok)) = .error diagnostic q := by
  rw [Document.parse_eq, Parser.ofSource, tokenize_eq_ok_iff.mp htokens] at h
  split at h
  next => cases h
  next found q hrule =>
    cases h
    exact ⟨q, hrule⟩

/-- A syntax error blames the earliest token that can be blamed. Once it has come the same error is found whatever
comes after it, while some document begins with the tokens before it. -/
theorem parse_blames_earliest (htokens : tokenize source = .ok tokens) (hnesting : tokens.length ≤ limits.maxNesting)
    (hdepth : tokens.length ≤ limits.maxExpressionDepth) (h : Document.parse limits source = .error diagnostic) :
    ∃ before blamed after, tokens = before ++ blamed :: after ∧ diagnostic.position = blamed.position ∧
      (∀ others : List Item,
        (Parser.ofItems limits ((before ++ [blamed]).map .ok ++ others)).parse.1 = .error diagnostic) ∧
      ∃ (others : List Token) (document : Document),
        (Parser.ofItems limits ((before ++ others).map .ok)).parse.1 = .ok document := by
  obtain ⟨pending, last, hsplit, hlast, -⟩ := exists_last_of_tokenize htokens
  obtain ⟨q, hrule⟩ := document_eq_error_of_parse htokens h
  obtain ⟨hposition, before, after, rest, document, htaken, hafter, hderived⟩ :=
    Rule.document_eq_error ⟨pending, last, hsplit, hlast⟩ (fun token => isSome_read?_of_tokenize htokens)
      hnesting hdepth hrule
  refine ⟨before, q.current, after, htaken, hposition, fun others => ?_, rest, document, ?_⟩
  · have hwhole : tokens.map Except.ok = ((before ++ [q.current]).map .ok ++ after.map .ok : List Item) := by
      rw [htaken, ← List.map_append, List.append_assoc]
      rfl
    rw [hwhole] at hrule
    refine Parser.parse_append (by rw [← hwhole, hsplit]) hlast hrule (by simp) ?_
    rw [hafter]
  · obtain ⟨r, hparse⟩ := Derived.document_eq_ok hderived
    rw [Parser.parse_fst, hparse]

theorem parse_blames_earliest_value :
    let opening : Token := ⟨.logicOpen, "<%", ⟨1, 1⟩⟩
    let target : Token := ⟨.identifier, "a", ⟨1, 4⟩⟩
    let equals : Token := ⟨.operator, "=", ⟨1, 6⟩⟩
    let closing : Token := ⟨.logicClose, "%>", ⟨1, 8⟩⟩
    let tokens := [opening, target, equals, closing, ⟨.endOfInput, "", ⟨1, 10⟩⟩]
    let diagnostic : Diagnostic := ⟨.unexpectedToken closing.found, ⟨1, 8⟩⟩
    tokenize "<% a = %>" = .ok tokens ∧ tokens.length ≤ 5 ∧ Document.parse ⟨5, 5⟩ "<% a = %>" = .error diagnostic ∧
      ∃ before blamed after, tokens = before ++ blamed :: after ∧ diagnostic.position = blamed.position ∧
        (∀ others : List Item,
          (Parser.ofItems ⟨5, 5⟩ ((before ++ [blamed]).map .ok ++ others)).parse.1 = .error diagnostic) ∧
        ∃ (others : List Token) (document : Document),
          (Parser.ofItems ⟨5, 5⟩ ((before ++ others).map .ok)).parse.1 = .ok document := by
  intro opening target equals closing tokens diagnostic
  have htokens : tokenize "<% a = %>" = .ok tokens := by cbv
  have hparse : Document.parse ⟨5, 5⟩ "<% a = %>" = .error diagnostic := by cbv
  exact ⟨htokens, by decide, hparse, parse_blames_earliest htokens (by decide) (by decide) hparse⟩

end Document

end Questionnaire
