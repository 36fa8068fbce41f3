import Questionnaire.Proofs.Grammar.Blame
import Questionnaire.Proofs.Grammar.Broken
import Questionnaire.Proofs.Grammar.Enclosed
import Questionnaire.Proofs.Grammar.Naturality
import Questionnaire.Proofs.Token.Appended
import Questionnaire.Proofs.Token.Numerals
import Questionnaire.Proofs.Token.Order

/-! Documents that are put behind one another. The components of the first are read in the same way whether a component
of the second comes next or the end of input, unless the last of them is a question in which nothing stands; from there
on the second document is read as it would be by itself. What it holds, or the fault in it, stands further down. -/

namespace Questionnaire

section

variable {room budget : Nat} {next : Token} {value : Component} {values : List Component} {tokens : List Token}

/-- What the last component leaves to the token after it. -/
def Component.Filled : Component → Prop
  | .question q => q.texts ≠ [] ∨ q.rows ≠ [] ∨ q.columns ≠ []
  | _ => True

theorem Series.eq_nil {α : Type} {derives : α → List Token → Prop} {values : List α} (h : Series derives values [])
    (hvalue : ∀ value, ¬derives value []) : values = [] := by
  generalize htokens : [] = tokens at h
  cases h with
  | nil => rfl
  | cons hderives _ =>
      obtain ⟨rfl, -⟩ := List.append_eq_nil_iff.mp htokens.symm
      exact absurd hderives (hvalue _)

/-- At the end of input a question is told from a section, and where something stands in it by that alone. -/
theorem Component.Derived.of_filled (h : Component.Derived .operation room budget next value tokens)
    (hnext : Rule.opensComponent next = false) (hfilled : value.Filled) (other : Token) :
    Component.Derived .operation room budget other value tokens := by
  cases h with
  | heading _ hopens =>
      rw [hnext] at hopens
      cases hopens
  | interlude hopening hstatements hclosing => exact .interlude hopening hstatements hclosing
  | @question _ _ texts options _ textual optional hattributes hends htexts hoptions =>
      refine .question hattributes ?_ htexts hoptions
      cases hsplit : textual ++ optional with
      | cons first more =>
          rw [hsplit] at hends
          exact hends
      | nil =>
          obtain ⟨rfl, rfl⟩ := List.append_eq_nil_iff.mp hsplit
          obtain rfl := htexts.eq_nil fun text htext => nomatch htext
          obtain rfl := hoptions.eq_nil fun option hoption => nomatch hoption
          simp [Component.Filled] at hfilled

/-- Components within a document end only at the next component. -/
theorem components_eq_nil (h : Components .operation room budget values [next]) : values = [] := by
  generalize htokens : [next] = tokens at h
  cases h with
  | nil => rfl
  | cons hcomponent _ =>
      obtain ⟨first, more, rfl, -⟩ := Rule.component_starts hcomponent
      cases more <;> cases htokens

end

namespace Rule

variable {room budget : Nat} {p q : Parser} {values : List Component} {tokens : List Token} {last : Token}

theorem map_apply {α β : Type} (f : α → β) (rule : Rule α) (p : Parser) : (f <$> rule) p =
    match rule p with
    | .ok value q => .ok (f value) q
    | .error diagnostic q => .error diagnostic q := by
  change EStateM.map f rule p = _
  unfold EStateM.map
  cases rule p <;> rfl

theorem rounds_of_ok {α : Type} {offer : Token → Option (Rule α)} {rule : Rule α} {value : α} {item : Item}
    {fuel : List Item} (hoffer : offer p.current = some rule) (hrule : rule p = .ok value q) :
    rounds offer (item :: fuel) p = ((fun others => value :: others) <$> rounds offer fuel) q := by
  rw [rounds_of_some _ hoffer]
  change EStateM.bind rule (roundsAfter offer (item :: fuel)) p = _
  unfold EStateM.bind
  rw [hrule]
  rfl

/-- The loop over components goes on from where the components of a document have been read, if another one comes. -/
theorem rounds_components (h : Components .operation room budget values (tokens ++ [last]))
    (hfilled : ∀ value ∈ values.getLast?, value.Filled) (hroom : p.HasRoom room budget) (htakes : p.Takes tokens 0 q)
    (hopens : opensComponent q.current = true) {fuel : List Item} (hfuel : p.items.length ≤ fuel.length) :
    ∃ fuel' : List Item, q.items.length ≤ fuel'.length ∧ rounds (componentOffer room) fuel p =
      ((fun others => values ++ others) <$> rounds (componentOffer room) fuel') q := by
  generalize hwhole : tokens ++ [last] = whole at h
  induction h generalizing p tokens fuel with
  | @nil last' hlast =>
      have hsplit : tokens ++ [last] = [] ++ [last'] := hwhole
      obtain ⟨rfl, -⟩ := List.append_inj' hsplit rfl
      obtain rfl := htakes.unique (Parser.Takes.refl p)
      exact ⟨fuel, hfuel, by simp⟩
  | @cons value values next stretch rest hcomponent hcomponents ih =>
      obtain ⟨others, final, hothers⟩ := (List.eq_nil_or_concat (next :: rest)).resolve_left (by simp)
      rw [List.concat_eq_append] at hothers
      rw [hothers, ← List.append_assoc] at hwhole
      obtain ⟨rfl, hfinal⟩ := List.append_inj' hwhole rfl
      cases hfinal
      obtain ⟨p₁, hfirst, hlater⟩ := htakes.split_zero
      have hread : Component.Derived .operation room budget p₁.current value stretch ∧ p₁.current.EndsComponent := by
        rw [hlater.current_eq_headD]
        cases others with
        | nil =>
            obtain ⟨rfl, rfl⟩ := List.cons.inj hothers
            obtain rfl := components_eq_nil hcomponents
            have hnext : opensComponent next = false := by
              cases hcomponents with
              | nil hlast => rw [opensComponent, hlast]; rfl
            exact ⟨hcomponent.of_filled hnext (hfilled value rfl) q.current, .inl hopens⟩
        | cons first others =>
            obtain ⟨rfl, -⟩ := List.cons.inj hothers
            exact ⟨hcomponent, components_starts hcomponents⟩
      have hrule := complete_component hread.1 hroom hread.2 hfirst
      have hlength := hfirst.length_items
      obtain ⟨first, more, rfl, hstart⟩ := component_starts hcomponent
      have hoffer : componentOffer room p.current = some (component room) := by
        rw [hfirst.current_eq]
        exact componentOffer_of_opens hstart
      rw [List.length_cons] at hlength
      have hpos : 0 < fuel.length := by omega
      obtain ⟨item, fuel, rfl⟩ := List.exists_cons_of_length_pos hpos
      rw [List.length_cons] at hfuel
      have hlater' : ∀ value ∈ values.getLast?, value.Filled := fun other hother => hfilled other (by
        rw [List.getLast?_cons, Option.mem_def.mp hother]
        rfl)
      have henough : p₁.items.length ≤ fuel.length := by omega
      obtain ⟨fuel', hfuel', hrounds⟩ := ih hlater' (hfirst.hasRoom hroom) hlater henough hothers.symm
      refine ⟨fuel', hfuel', ?_⟩
      rw [rounds_of_ok hoffer hrule, map_apply, hrounds, map_apply, map_apply]
      cases rounds (componentOffer room) fuel' q with
      | ok others r => rfl
      | error diagnostic r => rfl

end Rule

namespace Parser

variable {limits : Limits} {document : Document} {tokens more before : List Token} {last first ending : Token}

/-- A document is all that the loop over components reads from the first token on. -/
theorem parse_ofItems (first : Token) (items : List Item) : (ofItems limits (.ok first :: items)).parse.1 =
    match Rule.rounds (Rule.componentOffer limits.maxNesting) items ⟨limits, items, first, placeholder, true, 0, 0⟩ with
    | .ok components _ => .ok ⟨components⟩
    | .error diagnostic _ => .error diagnostic := by
  have hdocument : Rule.document limits.maxNesting (.ofItems limits (.ok first :: items)) =
      (Document.mk <$> Rule.rounds (Rule.componentOffer limits.maxNesting) items)
        ⟨limits, items, first, placeholder, true, 0, 0⟩ := by
    rw [← bind_pure_comp]
    rfl
  rw [parse_fst, hdocument, Rule.map_apply]
  generalize Rule.rounds _ items _ = result
  cases result <;> rfl

/-- Behind the tokens of a document, tokens that begin with a component are read as by themselves. -/
theorem parse_behind (move : Position → Position)
    (h : document.Derived .operation limits.maxNesting limits.maxExpressionDepth (tokens ++ [last]))
    (hfilled : ∀ value ∈ document.components.getLast?, value.Filled) (hopens : Rule.opensComponent first = true)
    (hsealed : first :: more = before ++ [ending]) (hending : ending.kind = .endOfInput) :
    (ofItems limits ((tokens ++ (first :: more).map (Token.relocate move)).map .ok)).parse.1 =
      relocateOutcome move (fun other => ⟨document.components ++ (other.relocate move).components⟩)
        (ofItems limits ((first :: more).map .ok)).parse.1 := by
  obtain ⟨head, rest, hcons⟩ : ∃ head rest, tokens ++ (first :: more).map (Token.relocate move) = head :: rest :=
    List.exists_cons_of_ne_nil (by simp)
  let start : Parser := ⟨limits, rest.map .ok, head, placeholder, true, 0, 0⟩
  let reached : Parser := ⟨limits, (more.map (Token.relocate move)).map .ok, first.relocate move,
    tokens.getLastD placeholder, true, 0, 0⟩
  let alone : Parser := ⟨limits, more.map .ok, first, placeholder, true, 0, 0⟩
  have hroom (items : List Item) (token previous : Token) :
      HasRoom ⟨limits, items, token, previous, true, 0, 0⟩ limits.maxNesting limits.maxExpressionDepth :=
    ⟨Nat.zero_add _, rfl⟩
  have htakes : start.Takes tokens 0 reached := by
    refine ⟨?_, rfl, rfl, by simp, rfl, rfl, rfl⟩
    change (head :: rest).map Except.ok = _
    rw [← hcons, List.map_append]
    rfl
  obtain ⟨fuel, hfuel, hrounds⟩ := Rule.rounds_components h hfilled (hroom _ _ _) htakes hopens (Nat.le_refl _)
  have hstream : alone.stream = (before ++ [ending]).map .ok := by
    rw [← hsealed]
    rfl
  have hvaried : alone.Varied ⟨move, [], []⟩ False reached :=
    ⟨⟨more, by simp [alone], by simp [reached]⟩, rfl, nofun, rfl, rfl, rfl, ⟨before, ending, hstream, hending⟩⟩
  have hagrees := Rule.agrees_rounds Rule.parallelOffers_component Rule.soundRounds_component (hroom _ _ _) hvaried
    (Nat.le_refl _) hfuel
  rw [hcons, List.map_cons, List.map_cons, parse_ofItems, parse_ofItems]
  change Rule.rounds _ (rest.map .ok) start = _ at hrounds
  change Agrees _ _ _ (Rule.rounds _ (more.map .ok) alone) _ at hagrees
  rw [hrounds, Rule.map_apply]
  generalize Rule.rounds (Rule.componentOffer limits.maxNesting) (more.map .ok) alone = result at hagrees ⊢
  generalize Rule.rounds (Rule.componentOffer limits.maxNesting) fuel reached = result' at hagrees ⊢
  cases hagrees with
  | ok => rfl
  | error => rfl
  | beyond hbeyond => cases hbeyond

/-- The same where the tokens break off with a fault: both streams are compared with those that end in its place. -/
theorem parse_behind_broken {move : Position → Position} {diagnostic : Diagnostic} (hmove : Function.Injective move)
    (h : document.Derived .operation limits.maxNesting limits.maxExpressionDepth (tokens ++ [last]))
    (hfilled : ∀ value ∈ document.components.getLast?, value.Filled) (hopens : Rule.opensComponent first = true)
    (halone : ∀ token ∈ first :: more, token.Precedes diagnostic)
    (hbehind : ∀ token ∈ tokens ++ (first :: more).map (Token.relocate move),
      token.Precedes (diagnostic.relocate move)) :
    (ofItems limits ((tokens ++ (first :: more).map (Token.relocate move)).map .ok ++
        [.error (diagnostic.relocate move)])).parse.1 =
      relocateOutcome move (fun other => ⟨document.components ++ (other.relocate move).components⟩)
        (ofItems limits ((first :: more).map .ok ++ [.error diagnostic])).parse.1 := by
  have hsealed : first :: (more ++ [diagnostic.ending]) = first :: more ++ [diagnostic.ending] := rfl
  have hended := parse_behind move h hfilled hopens hsealed rfl
  have hclosed : (first :: (more ++ [diagnostic.ending])).map Except.ok =
      (first :: more).map .ok ++ [(.ok diagnostic.ending : Item)] := by simp
  have hclosed' : (tokens ++ (first :: (more ++ [diagnostic.ending])).map (Token.relocate move)).map Except.ok =
      (tokens ++ (first :: more).map (Token.relocate move)).map .ok ++
        [(.ok (diagnostic.relocate move).ending : Item)] := by
    simp
    rfl
  rw [hclosed, hclosed'] at hended
  rcases parse_broken limits halone with ⟨fault, hne, hread, hend⟩ | ⟨hread, hend⟩
  · rw [hend] at hended
    rw [hread]
    rcases parse_broken limits hbehind with ⟨fault', -, hread', hend'⟩ | ⟨-, hend'⟩
    · rw [hread', ← hend']
      exact hended
    · exact absurd (hmove (hend' _ hended)) hne
  · rw [hread]
    rcases parse_broken limits hbehind with ⟨fault', hne, -, hend'⟩ | ⟨hread', -⟩
    · rw [hend'] at hended
      generalize (ofItems limits ((first :: more).map .ok ++ [.ok diagnostic.ending])).parse.1 = result at hend hended
      cases result with
      | ok other => cases hended
      | error fault =>
          cases hended
          exact absurd (congrArg move (hend fault rfl)) hne
    · exact hread'

end Parser

theorem Position.Before.ne {left right : Position} (h : left.Before right) : left ≠ right := by
  rintro rfl
  rw [before_iff] at h
  omega

/-- The tokens of a source stand before its fault. -/
theorem precedes_of_itemsOf {source : String} {tokens : List Token} {diagnostic : Diagnostic}
    (h : itemsOf source = tokens.map .ok ++ [.error diagnostic]) : ∀ token ∈ tokens, token.Precedes diagnostic := by
  intro token htoken
  have hitem : .ok token ∈ itemsOf source := h ▸ List.mem_append_left _ (List.mem_map_of_mem htoken)
  have hfault : .error diagnostic ∈ itemsOf source := h ▸ List.mem_append_right _ List.mem_cons_self
  refine ⟨fun hkind => ?_, (before_fault_of_itemsOf hitem hfault).ne, isSome_read?_of_itemsOf hitem⟩
  obtain ⟨before, after, rfl⟩ := List.append_of_mem htoken
  rw [List.map_append, List.append_assoc, List.map_cons, List.cons_append] at h
  have hnil := eq_nil_of_itemsOf h hkind
  simp at hnil

theorem exists_cons_of_map {tokens : List Token} {first : Token} {back rest : List Item}
    (h : tokens.map .ok ++ back = .ok first :: rest) (hback : ∀ token : Token, .ok token ∉ back) :
    ∃ more, tokens = first :: more := by
  cases tokens with
  | nil =>
      obtain rfl : back = .ok first :: rest := h
      exact absurd List.mem_cons_self (hback first)
  | cons token tokens =>
      obtain ⟨hfirst, -⟩ := List.cons.inj h
      cases hfirst
      exact ⟨tokens, rfl⟩

namespace Document

variable {limits : Limits} {first second : String} {document : Document}

/-- The items of a source that begins with a component are read behind the tokens of a document as by themselves. -/
theorem parse_of_itemsOf {source : String} {tokens : List Token} {last : Token} {move : Position → Position}
    (hmove : Function.Injective move)
    (h : document.Derived .operation limits.maxNesting limits.maxExpressionDepth (tokens ++ [last]))
    (hfilled : ∀ value ∈ document.components.getLast?, value.Filled)
    (hitems : itemsOf source = tokens.map .ok ++ (itemsOf second).map (Item.relocate move))
    (hopens : ∃ first rest, itemsOf second = .ok first :: rest ∧ Rule.opensComponent first = true) :
    Document.parse limits source =
      relocateOutcome move (fun other => ⟨document.components ++ (other.relocate move).components⟩)
        (Document.parse limits second) := by
  obtain ⟨first, rest, hfirst, hopens⟩ := hopens
  change (Parser.ofItems limits (itemsOf source)).parse.1 =
    relocateOutcome _ _ (Parser.ofItems limits (itemsOf second)).parse.1
  cases htokens : tokenize second with
  | ok others =>
      obtain ⟨before, ending, hsealed, hending, -⟩ := exists_last_of_tokenize htokens
      have hothers := tokenize_eq_ok_iff.mp htokens
      have hall : others.map Except.ok ++ [] = .ok first :: rest := by rw [List.append_nil, ← hothers, hfirst]
      obtain ⟨more, rfl⟩ := exists_cons_of_map hall (by simp)
      have hbehind := Parser.parse_behind move h hfilled hopens hsealed hending
      rw [List.map_append] at hbehind
      rw [hitems, hothers, ← hbehind]
      have hmoved : ((first :: more).map Except.ok).map (Item.relocate move) =
          ((first :: more).map (Token.relocate move)).map .ok := by
        simp [Item.relocate, relocateOutcome]
      rw [hmoved]
  | error diagnostic =>
      obtain ⟨others, hothers, -⟩ := exists_tokens_of_itemsOf (tokenize_eq_error_iff.mp htokens)
      obtain ⟨more, rfl⟩ := exists_cons_of_map (hothers.symm.trans hfirst) (by simp)
      have hsource : itemsOf source = (tokens ++ (first :: more).map (Token.relocate move)).map .ok ++
          [.error (diagnostic.relocate move)] := by
        rw [hitems, hothers]
        simp [Item.relocate, relocateOutcome]
      rw [hsource, hothers]
      exact Parser.parse_behind_broken hmove h hfilled hopens (precedes_of_itemsOf hothers)
        (precedes_of_itemsOf hsource)

/-- Documents concatenate. Behind a document and a line feed, a source that begins with a component is read as it is by
itself: its components come after those of the document, and they or the fault in it stand so many lines further down
as the document has. The document must not end in a question in which nothing stands, which would become a section. -/
theorem parse_concatenated {second : String} (hfirst : Document.parse limits first = .ok document)
    (hlast : ∀ q, document.components.getLast? = some (.question q) → q.texts ≠ [] ∨ q.rows ≠ [] ∨ q.columns ≠ [])
    (hsecond : ['<', '<'] <+: second.toList.dropWhile Text.isBlank ∨
      ['<', '%'] <+: second.toList.dropWhile Text.isBlank) :
    Document.parse limits (first ++ "\n" ++ second) =
      match Document.parse limits second with
      | .ok other =>
        .ok ⟨document.components ++ (other.relocate (.down (first.toList.count '\n' + 1))).components⟩
      | .error diagnostic => .error (diagnostic.relocate (.down (first.toList.count '\n' + 1))) := by
  obtain ⟨opener, hopener, hmark⟩ : ∃ opener : Opener, (opener = .question ∨ opener = .logic) ∧
      opener.spelling <+: second.toList.dropWhile Text.isBlank := by
    rcases hsecond with hsecond | hsecond
    · exact ⟨.question, .inl rfl, hsecond⟩
    · exact ⟨.logic, .inr rfl, hsecond⟩
  obtain ⟨tokens, htokens, hderived⟩ := parse_eq_ok_iff_derived.mp hfirst
  obtain ⟨before, last, rfl, hlastKind⟩ := components_split hderived
  have hclosed : unclosed (delimitersOf (before ++ [last])) = [] := hderived.wellNested.unclosed_append []
  have hitems := itemsOf_followedBy htokens hclosed (Text.marked_of_opener hmark)
  rw [List.dropLast_concat] at hitems
  have hopens : ∃ token rest, itemsOf second = .ok token :: rest ∧ Rule.opensComponent token = true := by
    obtain ⟨position, rest, hitems⟩ := exists_itemsOf_of_opener hmark
    exact ⟨_, rest, hitems, by rcases hopener with rfl | rfl <;> rfl⟩
  have hfilled : ∀ value ∈ document.components.getLast?, value.Filled := by
    intro value hvalue
    cases value with
    | question q => exact hlast q hvalue
    | heading heading => trivial
    | interlude interlude => trivial
  rw [parse_of_itemsOf (Position.down_injective _) hderived hfilled hitems hopens]
  cases Document.parse limits second <;> rfl

theorem parse_concatenated_question :
    let first := "<<q>> ask\nwhy "
    let document : Document :=
      ⟨[.question ⟨[.text ⟨.textRun, "ask\nwhy", ⟨1, 7⟩⟩], [⟨"q", none, true, .single ⟨.identifier, "q", ⟨1, 3⟩⟩⟩], [],
        [], ⟨⟨.questionOpen, "<<", ⟨1, 1⟩⟩, ⟨.textRun, "ask\nwhy", ⟨1, 7⟩⟩⟩⟩]⟩
    let target (line : Nat) : Token := ⟨.identifier, "a", ⟨line, 6⟩⟩
    let interlude (line : Nat) : Component := .interlude
      ⟨[.simple ⟨.symbol (target line) (.single (target line)), .single (target line)⟩],
        ⟨⟨.logicOpen, "<%", ⟨line, 3⟩⟩, ⟨.logicClose, "%>", ⟨line, 8⟩⟩⟩⟩
    Document.parse ⟨9, 9⟩ first = .ok document ∧
      Document.parse ⟨9, 9⟩ "\n  <% a %>" = .ok ⟨[interlude 2]⟩ ∧
      Document.parse ⟨9, 9⟩ (first ++ "\n" ++ "\n  <% a %>") = .ok ⟨document.components ++ [interlude 4]⟩ ∧
      Document.parse ⟨9, 9⟩ "<% a = %>" = .error ⟨.unexpectedToken "%>", ⟨1, 8⟩⟩ ∧
      Document.parse ⟨9, 9⟩ (first ++ "\n" ++ "<% a = %>") = .error ⟨.unexpectedToken "%>", ⟨3, 8⟩⟩ := by
  intro first document target interlude
  have hfirst : Document.parse ⟨9, 9⟩ "<<q>> ask\nwhy " = .ok document := by cbv
  have hlast : ∀ q, document.components.getLast? = some (.question q) →
      q.texts ≠ [] ∨ q.rows ≠ [] ∨ q.columns ≠ [] := by
    rintro q ⟨⟩
    exact .inl (List.cons_ne_nil _ _)
  have hread : Document.parse ⟨9, 9⟩ "\n  <% a %>" = .ok ⟨[interlude 2]⟩ := by cbv
  have hfault : Document.parse ⟨9, 9⟩ "<% a = %>" = .error ⟨.unexpectedToken "%>", ⟨1, 8⟩⟩ := by cbv
  have hboth : Document.parse ⟨9, 9⟩ (first ++ "\n" ++ "\n  <% a %>") = _ :=
    parse_concatenated hfirst hlast (.inr ⟨" a %>".toList, by cbv⟩)
  have hbroken : Document.parse ⟨9, 9⟩ (first ++ "\n" ++ "<% a = %>") = _ :=
    parse_concatenated hfirst hlast (.inr ⟨" a = %>".toList, by cbv⟩)
  have hlines : first.toList.count '\n' = 1 := by cbv
  rw [hread, hlines] at hboth
  rw [hfault, hlines] at hbroken
  exact ⟨hfirst, hread, hboth, hfault, hbroken⟩

end Document

end Questionnaire
