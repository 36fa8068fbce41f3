import Questionnaire.Proofs.Grammar.Acceptance
import Questionnaire.Proofs.Grammar.Composed
import Questionnaire.Proofs.Token.Numerals
import Questionnaire.Proofs.Token.Order
import Questionnaire.Proofs.Walk.Literals

/-! Faults that are found while a source is read. A parser that is served by a lexer moves along the items of the lexer;
it stops at the fault of the lexer, which it passes on, or at one of the grammar, which lies with a token that the lexer
has yielded. The stream never runs dry, and every number can be read. -/

namespace Questionnaire

/-- What a lexer sees to: something comes after every token but the end of input, and numbers can be read. -/
structure Served (stream : List Item) : Prop where
  follows : ∀ before token after, stream = before ++ .ok token :: after → token.kind ≠ .endOfInput → after ≠ []
  legible : ∀ token, .ok token ∈ stream → token.kind = .number → (Double.read? token.text.toList).isSome = true

theorem Served.of_suffix {stream rest : List Item} (h : Served stream) (hrest : rest <:+ stream) : Served rest where
  follows before token after hsplit hkind := by
    obtain ⟨front, hfront⟩ := hrest
    refine h.follows (front ++ before) token after ?_ hkind
    rw [← hfront, hsplit, List.append_assoc]
  legible token htoken := h.legible token (hrest.subset htoken)

theorem served_itemsOf (source : String) : Served (itemsOf source) where
  follows _ _ _ := ne_nil_of_itemsOf
  legible _ := isSome_read?_of_itemsOf

namespace Rule

variable {α β : Type} {p q : Parser} {rule : Rule α} {stream rest : List Item}

/-- A reading goes on within the stream, or it stops at a fault of the supplier or at a token of the stream, which is
then what it says it found. -/
inductive Honest (stream : List Item) : EStateM.Result Diagnostic Parser α → Prop where
  | ok {value : α} {q : Parser} (hrest : q.stream <:+ stream) : Honest stream (.ok value q)
  | supplied {diagnostic : Diagnostic} {q : Parser} (hitem : .error diagnostic ∈ stream) :
      Honest stream (.error diagnostic q)
  | grammatical {fault : Fault} {token : Token} {q : Parser} (hfault : fault.isGrammatical = true)
      (hfound : ∀ text ∈ fault.found?, text = token.found) (htoken : .ok token ∈ stream) :
      Honest stream (.error ⟨fault, token.position⟩ q)

theorem Honest.of_suffix {result : EStateM.Result Diagnostic Parser α} (h : Honest rest result)
    (hrest : rest <:+ stream) : Honest stream result := by
  cases h with
  | ok hleft => exact .ok (hleft.trans hrest)
  | supplied hitem => exact .supplied (hrest.subset hitem)
  | grammatical hfault hfound htoken => exact .grammatical hfault hfound (hrest.subset htoken)

theorem honest_stay (value : α) (p : Parser) : Honest p.stream (.ok value p) := .ok (List.suffix_refl _)

theorem honest_refuse {fault : Fault} (hfault : fault.isGrammatical = true)
    (hfound : ∀ text ∈ fault.found?, text = p.current.found) : Honest p.stream (refuse (α := α) fault p) :=
  .grammatical hfault hfound List.mem_cons_self

theorem honest_bind {next : α → Rule β} (h : Honest stream (rule p))
    (hnext : ∀ value q, q.stream <:+ stream → Honest q.stream (next value q)) : Honest stream ((rule >>= next) p) := by
  change Honest stream (EStateM.bind rule next p)
  unfold EStateM.bind
  generalize rule p = result at h
  cases h with
  | ok hrest => exact (hnext _ _ hrest).of_suffix hrest
  | supplied hitem => exact .supplied hitem
  | grammatical hfault hfound htoken => exact .grammatical hfault hfound htoken

/-- A token comes after the one ahead, or a fault of the supplier. -/
theorem honest_shift (h : Served p.stream) : Honest p.stream (shift p) := by
  unfold shift
  split
  · exact honest_stay _ p
  next hkind =>
    have hne := h.follows [] p.current p.items rfl hkind
    unfold fetch
    cases hitems : p.items with
    | nil => exact absurd hitems hne
    | cons item items =>
        cases item with
        | ok token => exact .ok ⟨[.ok p.current], by rw [Parser.stream, Parser.stream, hitems]; rfl⟩
        | error diagnostic =>
            refine .supplied ?_
            rw [Parser.stream, hitems]
            exact List.mem_cons_of_mem _ List.mem_cons_self

theorem honest_number (h : Served p.stream) (hkind : p.current.kind = .number) : Honest p.stream (number p) := by
  obtain ⟨value, hvalue⟩ := Option.isSome_iff_exists.mp (h.legible p.current List.mem_cons_self hkind)
  rw [number, current_bind]
  refine honest_bind (honest_shift h) fun _ q _ => ?_
  rw [hvalue]
  exact honest_stay _ q

theorem honest_leaving {exit : Parser → Parser} (h : Honest stream (rule p))
    (hexit : ∀ after, (exit after).stream = after.stream) : Honest stream (leaving exit rule p) := by
  unfold leaving
  generalize rule p = result at h
  cases h with
  | ok hrest => exact .ok (by rwa [hexit])
  | supplied hitem => exact .supplied hitem
  | grammatical hfault hfound htoken => exact .grammatical hfault hfound htoken

theorem honest_rounds {offer : Token → Option (Rule α)} (hround : ∀ p : Parser, ∀ rule ∈ offer p.current,
    Served p.stream → Honest p.stream (rule p)) (fuel : List Item) (h : Served p.stream) :
    Honest p.stream (rounds offer fuel p) := by
  induction fuel generalizing p with
  | nil =>
      rw [rounds, current_bind]
      cases hoffer : offer p.current with
      | none => exact honest_stay _ p
      | some round => exact honest_bind (hround p _ hoffer h) fun _ q _ => honest_stay _ q
  | cons item fuel ih =>
      rw [rounds, current_bind]
      cases hoffer : offer p.current with
      | none => exact honest_stay _ p
      | some round =>
          refine honest_bind (hround p _ hoffer h) fun value q hq => ?_
          exact honest_bind (ih (h.of_suffix hq)) fun _ r _ => honest_stay _ r

/-- What the rules of the grammar keep. -/
theorem ComposedAt.honest {ahead : Option Token} (h : ComposedAt ahead rule) (p : Parser)
    (hahead : ∀ token ∈ ahead, p.current = token) (hserved : Served p.stream) : Honest p.stream (rule p) := by
  induction h generalizing p with
  | pure value => exact honest_stay value p
  | bind _ _ ih ihNext =>
      exact honest_bind (ih p hahead hserved) fun value q hq => ihNext value q nofun (hserved.of_suffix hq)
  | look _ ih => exact ih p.current p (fun _ => Option.some.inj) hserved
  | current => exact honest_stay _ p
  | shift => exact honest_shift hserved
  | charge =>
      unfold Rule.charge
      split
      · exact honest_refuse rfl nofun
      · exact .ok (List.suffix_refl _)
  | spanSince first => exact honest_stay _ p
  | number hkind => exact honest_number hserved ((hahead _ rfl).symm ▸ hkind)
  | refuse hfault hfound =>
      refine honest_refuse hfault fun text htext => ?_
      obtain ⟨token, htoken, rfl⟩ := Option.mem_map.mp (hfound text htext)
      rw [hahead token htoken]
  | bracketed _ ih =>
      unfold Rule.bracketed
      split
      · exact honest_refuse rfl nofun
      · exact honest_leaving (ih { p with depth := p.depth + 1 } hahead hserved) fun _ => rfl
  | budgeted _ ih => exact honest_leaving (ih { p with links := 0 } hahead hserved) fun _ => rfl
  | repeatWhile _ ih =>
      refine honest_rounds (fun q rule hrule => ?_) p.items hserved
      exact ih q.current rule hrule q fun _ => Option.some.inj

theorem Composed.honest (h : Composed rule) (p : Parser) (hserved : Served p.stream) : Honest p.stream (rule p) :=
  (h none).honest p nofun hserved

/-- A parser on a stream that is served reports the fault of the supplier or one of the grammar. -/
theorem document_honest {limits : Limits} {items : List Item} (h : Served items) (hne : items ≠ []) :
    Honest items (document limits.maxNesting (.ofItems limits items)) := by
  have hstart : Honest items (start (.ofItems limits items)) := by
    cases items with
    | nil => exact absurd rfl hne
    | cons item items =>
        cases item with
        | ok token => exact .ok (List.suffix_refl _)
        | error diagnostic => exact .supplied List.mem_cons_self
  refine honest_bind hstart fun _ p hp => ?_
  refine honest_bind ((Composed.components limits.maxNesting).honest p (h.of_suffix hp)) fun _ q _ => ?_
  exact honest_stay _ q

end Rule

namespace Fault

/-- Whether the fault is one of the characters, numbers apart. -/
def isLexical : Fault → Bool
  | .unexpectedCharacter _ => true
  | .attributeNameMissing => true
  | .nestedEmbedding => true
  | .embeddingInLogic => true
  | .unterminatedString => true
  | _ => false

theorem isSemantic_of_isGrammatical {fault : Fault} (h : fault.isGrammatical = true) : fault.isSemantic = false := by
  cases fault <;> first | rfl | cases h

theorem getElem?_append {front : String} {index : Nat} {c : Char} (h : front.toList[index]? = some c) (back : String) :
    (front ++ back).toList[index]? = some c := by
  rw [String.toList_append, List.getElem?_append_left (List.getElem?_eq_some_iff.mp h).1, h]

/-- The ninth characters tell the messages apart that a source may give rise to from the others. -/
theorem exists_ninth {fault : Fault} (h : fault.isGrammatical = true ∨ fault.isLexical = true) :
    ∃ c, fault.message.toList[8]? = some c ∧ c ≠ 'r' ∧ c ≠ 'n' := by
  cases fault with
  | unexpectedCharacter c =>
      have hmessage : (unexpectedCharacter c).message = "Unexpected character '" ++ (c.toString ++ "'") :=
        String.append_assoc ..
      rw [hmessage]
      exact ⟨'e', getElem?_append (by decide) _, by decide⟩
  | attributeNameMissing => exact ⟨'g', by decide, by decide⟩
  | nestedEmbedding => exact ⟨'m', by decide, by decide⟩
  | embeddingInLogic => exact ⟨' ', by decide, by decide⟩
  | unterminatedString => exact ⟨'a', by decide, by decide⟩
  | expected what found =>
      have hmessage : (expected what found).message = "expecting " ++ (what ++ (" but found " ++ found)) :=
        (String.append_assoc ..).trans (String.append_assoc ..)
      rw [hmessage]
      exact ⟨'g', getElem?_append (by decide) _, by decide⟩
  | unexpectedToken found => exact ⟨'e', getElem?_append (by decide) found, by decide⟩
  | invalidAttributeName found => exact ⟨'a', getElem?_append (by decide) found, by decide⟩
  | invalidAttributeValue found => exact ⟨' ', getElem?_append (by decide) found, by decide⟩
  | invalidAssignment => exact ⟨'a', by decide, by decide⟩
  | invalidProperty => exact ⟨'p', by decide, by decide⟩
  | tooDeep => exact ⟨'t', by decide, by decide⟩
  | _ => rcases h with h | h <;> cases h

/-- None of them is that of a stream that runs dry or of a number that cannot be read. -/
theorem message_ne {fault : Fault} (h : fault.isGrammatical = true ∨ fault.isLexical = true) :
    fault.message ≠ "token stream ended before end of input" ∧
      ∀ literal, fault.message ≠ "Invalid number literal: " ++ literal := by
  obtain ⟨c, hninth, hr, hn⟩ := exists_ninth h
  refine ⟨fun heq => ?_, fun literal heq => ?_⟩
  · rw [heq] at hninth
    exact hr (Option.some.inj hninth).symm
  · rw [heq, getElem?_append (by decide : _ = some 'n') literal] at hninth
    exact hn (Option.some.inj hninth).symm

end Fault

/-- A lexer finds fault with characters alone, wherever it stands. -/
theorem Lexer.isLexical_of_next {lexer : Lexer} {diagnostic : Diagnostic} (h : lexer.next.1 = .error diagnostic) :
    diagnostic.fault.isLexical = true := by
  have hrejects := (lexer.mode.stops_skip lexer.cursor).tells.fault _ (Scan.item_eq_error h)
  have hnumber := Lexer.fault_ne_invalidNumber h
  generalize diagnostic.fault = fault at hrejects hnumber ⊢
  cases fault with
  | invalidNumber literal => exact absurd rfl (hnumber literal)
  | _ => first | rfl | exact hrejects.elim

namespace Document

variable {limits : Limits} {source : String} {document : Document} {diagnostic : Diagnostic}

/-- All numbers of a document that is read from a source come from its numerals. -/
theorem plain_of_parse (h : Document.parse limits source = .ok document) {value : Double} {span : Span}
    (hnode : .expression (.number value span) ∈ document.nodes) : value.Plain := by
  obtain ⟨tokens, htokens, hderived⟩ := parse_eq_ok_iff_derived.mp h
  obtain ⟨token, htoken, hkind, hvalue⟩ := exists_token_of_number (hderived.holds.number_mem hnode)
  have hitem : .ok token ∈ itemsOf source := by
    rw [tokenize_eq_ok_iff.mp htokens]
    exact List.mem_map_of_mem htoken
  obtain ⟨read, hread, hplain⟩ := exists_read?_of_itemsOf hitem hkind
  cases hread.symm.trans hvalue
  exact hplain

/-- The fault of the lexer, or one of the grammar at a token before it, which is then what it says it found. -/
theorem found_of_parse (h : Document.parse limits source = .error diagnostic) :
    .error diagnostic ∈ itemsOf source ∨
      (diagnostic.fault.isGrammatical = true ∧ ∃ token, .ok token ∈ itemsOf source ∧
        diagnostic.position = token.position ∧ ∀ text ∈ diagnostic.fault.found?, text = token.found) := by
  have hhonest : Rule.Honest (itemsOf source) (Rule.document limits.maxNesting (.ofSource limits source)) :=
    Rule.document_honest (served_itemsOf source) (itemsOf_ne_nil source)
  rw [Document.parse_eq] at h
  generalize Rule.document limits.maxNesting (.ofSource limits source) = result at h hhonest
  cases hhonest with
  | ok hrest => cases h
  | supplied hitem =>
      cases h
      exact .inl hitem
  | grammatical hfault hfound htoken =>
      cases h
      exact .inr ⟨hfault, _, htoken, rfl, hfound⟩

theorem fault_of_parse (h : Document.parse limits source = .error diagnostic) :
    .error diagnostic ∈ itemsOf source ∨
      (diagnostic.fault.isGrammatical = true ∧ ∃ token, .ok token ∈ itemsOf source ∧
        diagnostic.position = token.position) := by
  refine (found_of_parse h).imp_right fun ⟨hfault, token, htoken, hposition, _⟩ => ?_
  exact ⟨hfault, token, htoken, hposition⟩

/-- A source is read to its end, or its fault is a genuine one: that of the lexer as it is, or one of the grammar, which
lies with a token that the lexer yields before it finds any fault. The stream never runs dry, and every number can be
read, as one that is neither negative nor undefined. -/
theorem parse_reports_genuine (limits : Limits) (source : String) :
    (match Document.parse limits source with
      | .ok document => (∃ tokens, tokenize source = .ok tokens) ∧
          ∀ value span, .expression (.number value span) ∈ document.nodes →
            value.isNegative = false ∧ value ≠ .notANumber
      | .error diagnostic =>
          (tokenize source = .error diagnostic ∨
            diagnostic.kind = "Syntax" ∧ ∃ token, .ok token ∈ itemsOf source ∧ diagnostic.position = token.position ∧
              ∀ other, tokenize source = .error other → token.position.Before other.position) ∧
            diagnostic.message ≠ "token stream ended before end of input" ∧
            ∀ literal, diagnostic.message ≠ "Invalid number literal: " ++ literal) ∧
      ∀ (lexer : Lexer) (diagnostic : Diagnostic), lexer.next.1 = .error diagnostic →
        ∀ literal, diagnostic.message ≠ "Invalid number literal: " ++ literal := by
  refine ⟨?_, fun lexer diagnostic h => (Fault.message_ne (.inr (Lexer.isLexical_of_next h))).2⟩
  cases hparse : Document.parse limits source with
  | ok document =>
      obtain ⟨tokens, htokens, -⟩ := parse_eq_ok_iff_derived.mp hparse
      exact ⟨⟨tokens, htokens⟩, fun value span => plain_of_parse hparse⟩
  | error diagnostic =>
      rcases fault_of_parse hparse with hitem | ⟨hfault, token, htoken, hposition⟩
      · obtain ⟨lexer, hnext⟩ := Lexer.exists_next_of_mem_items hitem
        exact ⟨.inl (tokenize_eq_error_iff.mpr hitem), Fault.message_ne (.inr (Lexer.isLexical_of_next hnext))⟩
      · have hkind : diagnostic.kind = "Syntax" := by
          rw [Diagnostic.kind, Fault.isSemantic_of_isGrammatical hfault, if_neg Bool.false_ne_true]
        refine ⟨.inr ⟨hkind, token, htoken, hposition, fun other hother => ?_⟩, Fault.message_ne (.inl hfault)⟩
        exact before_fault_of_itemsOf htoken (tokenize_eq_error_iff.mp hother)

end Document

end Questionnaire
