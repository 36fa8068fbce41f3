import Mathlib.Tactic.SplitIfs
import Questionnaire.Proofs.Token.Spelling

/-! The modes of a lexer as an automaton. Only delimiters turn one mode into another, and each is known in the modes
that the automaton says, so that the delimiters of a run nest no deeper than two and tell its mode. The main statement
is about any number of steps, past faults and past the end of input too. -/

namespace Questionnaire

/-- The languages of attributes. -/
def Mode.isAttributes : Mode → Bool
  | .questionAttributes => true
  | .optionAttributes => true
  | _ => false

/-- The languages of logic. -/
def Mode.isLogical : Mode → Bool
  | .embedded _ => true
  | .logic => true
  | _ => false

theorem Mode.ne_text_of_isAttributes {mode : Mode} (h : mode.isAttributes = true) : mode ≠ .text := by
  rintro rfl
  cases h

theorem Mode.ne_text_of_isLogical {mode : Mode} (h : mode.isLogical = true) : mode ≠ .text := by
  rintro rfl
  cases h

/-- The turns of the automaton: the mode that a token of the kind is read in, and the mode after it. -/
inductive Mode.Turns : Mode → TokenKind → Mode → Prop where
  | questionOpen : Turns .text .questionOpen .questionAttributes
  | optionOpen : Turns .text .optionOpen .optionAttributes
  | logicOpen : Turns .text .logicOpen .logic
  | embeddedOpen (resume : Resume) : Turns resume.mode .embeddedOpen (.embedded resume)
  | questionClose : Turns .questionAttributes .questionClose .text
  | optionClose : Turns .optionAttributes .optionClose .text
  | logicClose : Turns .logic .logicClose .text
  | embeddedClose (resume : Resume) : Turns (.embedded resume) .embeddedClose resume.mode
  | textRun : Turns .text .textRun .text
  | attributeKeyword {mode : Mode} (hmode : mode.isAttributes = true) : Turns mode .attributeKeyword mode
  | logical {mode : Mode} {kind : TokenKind} (hmode : mode.isLogical = true)
      (hkind : kind ∈ ([.number, .operator, .keyword, .callKeyword, .valueKeyword] : List TokenKind)) :
      Turns mode kind mode
  | shared {mode : Mode} {kind : TokenKind} (hmode : mode ≠ .text)
      (hkind : kind ∈ ([.string, .identifier, .punctuation] : List TokenKind)) : Turns mode kind mode
  | endOfInput {mode : Mode} : Turns mode .endOfInput mode

/-- The kind of the token, if the item is one. -/
def Item.kind? : Item → Option TokenKind
  | .ok token => some token.kind
  | .error _ => none

/-- One step of a lexer by its item. A fault leaves the mode as it is. -/
def Mode.Step (before : Mode) (item : Item) (after : Mode) : Prop :=
  match item.kind? with
  | some kind => before.Turns kind after
  | none => after = before

namespace Scan

/-- The token of a scan is one that the mode knows, and the mode that follows is the one it turns to. -/
def Follows (scan : Scan) (mode : Mode) : Prop :=
  match scan.outcome with
  | .ok (kind, _) => mode.Turns kind scan.mode
  | .error _ => scan.mode = mode

variable {mode : Mode} {kind : TokenKind}

theorem follows_opening_text (opener : Opener) (text : List Char) : (opening .text opener text).Follows .text := by
  cases opener with
  | question => exact .questionOpen
  | option => exact .optionOpen
  | embedded => exact .embeddedOpen .text
  | logic => exact .logicOpen

theorem follows_opening_embedded (h : mode.isAttributes = true) (text : List Char) :
    (opening mode .embedded text).Follows mode := by
  cases mode with
  | questionAttributes => exact .embeddedOpen .questionAttributes
  | optionAttributes => exact .embeddedOpen .optionAttributes
  | _ => cases h

theorem follows_closing {text : List Char} {scan : Scan} (h : closing? mode text = some scan) : scan.Follows mode := by
  unfold closing? at h
  split at h
  next closer hcloser =>
    split_ifs at h
    cases h
    cases mode with
    | text => cases hcloser
    | questionAttributes => cases hcloser; exact .questionClose
    | optionAttributes => cases hcloser; exact .optionClose
    | embedded resume => cases hcloser; exact .embeddedClose resume
    | logic => cases hcloser; exact .logicClose
  next => cases h

theorem follows_string (h : mode ≠ .text) (quote : Char) (text : List Char) :
    (string mode quote text).Follows mode := by
  unfold string
  generalize Lexeme.stringBody quote text = split
  obtain ⟨body, after⟩ := split
  dsimp only
  split
  · rfl
  · split
    · exact .shared h (by simp)
    · rfl

theorem follows_number (h : mode.isLogical = true) (text : List Char) : (number mode text).Follows mode := by
  unfold number
  generalize Lexeme.number text = split
  obtain ⟨literal, rest⟩ := split
  dsimp only
  split
  · exact .logical h (by simp)
  · rfl

theorem follows_word (h : mode.isLogical = true) (text : List Char) : (word mode text).Follows mode := by
  unfold word lexeme Follows Vocabulary.kindOf
  dsimp only
  split_ifs
  · exact .logical h (by simp)
  · exact .logical h (by simp)
  · exact .logical h (by simp)
  · exact .logical h (by simp)
  · exact .shared (Mode.ne_text_of_isLogical h) (by simp)

theorem follows_markedName (h : mode.isAttributes = true) (mark : Char) (rest : List Char) :
    (markedName mode mark rest).Follows mode := by
  unfold markedName
  split
  · split
    · exact .attributeKeyword h
    · rfl
  · rfl

theorem follows_inText (text : List Char) : (inText text).Follows .text := by
  unfold inText
  split
  · exact follows_opening_text _ _
  · exact .endOfInput
  · exact .textRun

theorem follows_inAttributes (h : mode.isAttributes = true) (text : List Char) :
    (inAttributes mode text).Follows mode := by
  have hne := Mode.ne_text_of_isAttributes h
  unfold inAttributes
  split
  next hcloses => exact follows_closing hcloses
  · exact .endOfInput
  · split_ifs
    · exact follows_opening_embedded h _
    · exact follows_string hne _ _
    · exact .shared hne (by simp)
    · exact follows_markedName h _ _
    · exact .shared hne (by simp)
    · rfl

theorem follows_inLogic (h : mode.isLogical = true) (text : List Char) : (inLogic mode text).Follows mode := by
  have hne := Mode.ne_text_of_isLogical h
  unfold inLogic
  split
  next hcloses => exact follows_closing hcloses
  · exact .endOfInput
  · split_ifs
    · rfl
    · rfl
    · exact follows_string hne _ _
    · exact follows_number h _
    · exact .shared hne (by simp)
    · exact .logical h (by simp)
    · exact follows_word h _
    · rfl

theorem follows_scan (mode : Mode) (text : List Char) : (mode.scan text).Follows mode := by
  cases mode with
  | text => exact follows_inText text
  | questionAttributes => exact follows_inAttributes rfl text
  | optionAttributes => exact follows_inAttributes rfl text
  | embedded => exact follows_inLogic rfl text
  | logic => exact follows_inLogic rfl text

end Scan

/-- The kind of delimiter that closes what one of the kind opens. -/
def TokenKind.closer? : TokenKind → Option TokenKind
  | .questionOpen => some .questionClose
  | .optionOpen => some .optionClose
  | .embeddedOpen => some .embeddedClose
  | .logicOpen => some .logicClose
  | _ => none

def TokenKind.closes : TokenKind → Bool
  | .questionClose => true
  | .optionClose => true
  | .embeddedClose => true
  | .logicClose => true
  | _ => false

/-- Delimiters that pair off, nested no deeper than the given number. -/
inductive WellNested : Nat → List TokenKind → Prop where
  | nil {depth : Nat} : WellNested depth []
  | pair {depth : Nat} {opening closing : TokenKind} {inner others : List TokenKind}
      (hcloser : opening.closer? = some closing) (hinner : WellNested depth inner)
      (hothers : WellNested (depth + 1) others) :
      WellNested (depth + 1) (opening :: (inner ++ closing :: others))

/-- The delimiters that are open after those of the list, innermost first. -/
def unclosed (delimiters : List TokenKind) : List TokenKind :=
  delimiters.foldl (fun stack kind => if kind.closes then stack.tail else kind :: stack) []

/-- The mode within the given delimiters, innermost first. -/
def Mode.within : List TokenKind → Mode
  | .questionOpen :: _ => .questionAttributes
  | .optionOpen :: _ => .optionAttributes
  | .logicOpen :: _ => .logic
  | .embeddedOpen :: outer => .embedded (Mode.within outer).resume
  | _ => .text

/-- The kind, where it is one of a delimiter. -/
def TokenKind.delimiter? (kind : TokenKind) : Option TokenKind :=
  if kind.closer?.isSome || kind.closes then some kind else none

/-- The kinds of the delimiters among the tokens of some steps. -/
def delimiters (steps : List (Item × Lexer)) : List TokenKind :=
  steps.filterMap fun step => step.1.kind?.bind TokenKind.delimiter?

/-- The kinds of the delimiters among some tokens. -/
def delimitersOf (tokens : List Token) : List TokenKind := tokens.filterMap fun token => token.kind.delimiter?

theorem delimitersOf_cons (token : Token) (tokens : List Token) :
    delimitersOf (token :: tokens) = token.kind.delimiter?.toList ++ delimitersOf tokens := by
  rw [delimitersOf, List.filterMap_cons]
  cases token.kind.delimiter? <;> rfl

theorem delimitersOf_append (left right : List Token) :
    delimitersOf (left ++ right) = delimitersOf left ++ delimitersOf right := List.filterMap_append

/-- The delimiters that a lexer of the mode stands within, innermost first. -/
def Resume.enclosing : Resume → List TokenKind
  | .text => []
  | .questionAttributes => [.questionOpen]
  | .optionAttributes => [.optionOpen]

@[inherit_doc Resume.enclosing]
def Mode.enclosing : Mode → List TokenKind
  | .text => []
  | .questionAttributes => [.questionOpen]
  | .optionAttributes => [.optionOpen]
  | .logic => [.logicOpen]
  | .embedded resume => .embeddedOpen :: resume.enclosing

theorem Mode.within_enclosing (mode : Mode) : Mode.within mode.enclosing = mode := by
  cases mode with
  | embedded resume => cases resume <;> rfl
  | _ => rfl

theorem Mode.enclosing_mode (resume : Resume) : resume.mode.enclosing = resume.enclosing := by
  cases resume <;> rfl

theorem WellNested.append {depth : Nat} {left right : List TokenKind} (hleft : WellNested depth left)
    (hright : WellNested depth right) : WellNested depth (left ++ right) := by
  induction hleft with
  | nil => exact hright
  | pair hcloser hinner _ _ ih =>
      rw [List.cons_append, List.append_assoc, List.cons_append]
      exact .pair hcloser hinner (ih hright)

/-- Delimiters of which those of the stack are open, with the depth left within the innermost. -/
inductive LeftOpen : Nat → List TokenKind → List TokenKind → Prop where
  | closed {depth : Nat} {delimiters : List TokenKind} (h : WellNested depth delimiters) : LeftOpen depth [] delimiters
  | within {depth : Nat} {opening closing : TokenKind} {stack before inner : List TokenKind}
      (hcloser : opening.closer? = some closing) (hbefore : LeftOpen (depth + 1) stack before)
      (hinner : WellNested depth inner) : LeftOpen depth (opening :: stack) (before ++ opening :: inner)

namespace LeftOpen

variable {depth : Nat} {opening closing : TokenKind} {stack delimiters more : List TokenKind}

theorem append (h : LeftOpen depth stack delimiters) (hmore : WellNested depth more) :
    LeftOpen depth stack (delimiters ++ more) := by
  cases h with
  | closed h => exact .closed (h.append hmore)
  | within hcloser hbefore hinner =>
      rw [List.append_assoc, List.cons_append]
      exact .within hcloser hbefore (hinner.append hmore)

theorem opens (h : LeftOpen (depth + 1) stack delimiters) (hcloser : opening.closer? = some closing) :
    LeftOpen depth (opening :: stack) (delimiters ++ [opening]) := .within hcloser h .nil

theorem closes (h : LeftOpen depth (opening :: stack) delimiters) (hcloser : opening.closer? = some closing) :
    LeftOpen (depth + 1) stack (delimiters ++ [closing]) := by
  cases h with
  | within _ hbefore hinner =>
      rw [List.append_assoc]
      exact hbefore.append (.pair hcloser hinner .nil)

/-- Closing what is open, from the inside out, leaves nothing open. -/
theorem exists_wellNested (h : LeftOpen depth stack delimiters) :
    ∃ rest, WellNested (depth + stack.length) (delimiters ++ rest) := by
  induction stack generalizing depth delimiters with
  | nil =>
      cases h with
      | closed h => exact ⟨[], by simpa using h⟩
  | cons opening stack ih =>
      obtain ⟨closing, hcloser⟩ : ∃ closing, opening.closer? = some closing := by
        cases h with
        | within hcloser => exact ⟨_, hcloser⟩
      obtain ⟨rest, hrest⟩ := ih (h.closes hcloser)
      refine ⟨closing :: rest, ?_⟩
      rw [List.append_cons, List.length_cons, Nat.add_comm stack.length, ← Nat.add_assoc]
      exact hrest

end LeftOpen

theorem unclosed_concat_of_closes {delimiters : List TokenKind} {kind : TokenKind} (h : kind.closes = true) :
    unclosed (delimiters ++ [kind]) = (unclosed delimiters).tail := by
  simp [unclosed, h]

theorem unclosed_concat_of_opens {delimiters : List TokenKind} {kind : TokenKind} (h : kind.closes = false) :
    unclosed (delimiters ++ [kind]) = kind :: unclosed delimiters := by
  simp [unclosed, h]

/-- The delimiters read so far are those around a lexer of the mode. -/
structure Mode.Bracketed (mode : Mode) (delimiters : List TokenKind) : Prop where
  opened : LeftOpen (2 - mode.enclosing.length) mode.enclosing delimiters
  unclosed : unclosed delimiters = mode.enclosing

namespace Mode

variable {before after : Mode} {kind : TokenKind}

theorem Bracketed.opens {delimiters : List TokenKind} {closing : TokenKind} (h : before.Bracketed delimiters)
    (hcloser : kind.closer? = some closing) (hafter : after.enclosing = kind :: before.enclosing)
    (hroom : before.enclosing.length < 2) : after.Bracketed (delimiters ++ [kind]) := by
  have hdepth : 2 - before.enclosing.length = 2 - after.enclosing.length + 1 := by
    rw [hafter, List.length_cons]
    omega
  have hcloses : kind.closes = false := by cases kind <;> first | rfl | cases hcloser
  refine ⟨?_, ?_⟩
  · have hopened := h.opened
    rw [hdepth] at hopened
    rw [hafter] at hopened ⊢
    exact hopened.opens hcloser
  · rw [unclosed_concat_of_opens hcloses, h.unclosed, hafter]

theorem Bracketed.closes {delimiters : List TokenKind} {opening : TokenKind} (h : before.Bracketed delimiters)
    (hbefore : before.enclosing = opening :: after.enclosing) (hcloser : opening.closer? = some kind)
    (hroom : before.enclosing.length ≤ 2) : after.Bracketed (delimiters ++ [kind]) := by
  have hdepth : 2 - after.enclosing.length = 2 - before.enclosing.length + 1 := by
    rw [hbefore, List.length_cons] at hroom ⊢
    omega
  have hcloses : kind.closes = true := by cases opening <;> cases hcloser <;> rfl
  refine ⟨?_, ?_⟩
  · have hopened := h.opened
    rw [hdepth]
    rw [hbefore] at hopened ⊢
    exact hopened.closes hcloser
  · rw [unclosed_concat_of_closes hcloses, h.unclosed, hbefore, List.tail_cons]

theorem length_enclosing_le (resume : Resume) : resume.enclosing.length ≤ 1 := by
  cases resume <;> decide

/-- One turn keeps the delimiters and the mode in step. -/
theorem Bracketed.turn {delimiters : List TokenKind} (h : before.Bracketed delimiters)
    (hturn : before.Turns kind after) : after.Bracketed (delimiters ++ kind.delimiter?.toList) := by
  cases hturn with
  | questionOpen => exact h.opens rfl rfl (by decide)
  | optionOpen => exact h.opens rfl rfl (by decide)
  | logicOpen => exact h.opens rfl rfl (by decide)
  | embeddedOpen resume =>
      have hlength := length_enclosing_le resume
      rw [← enclosing_mode] at hlength
      exact h.opens rfl (by rw [enclosing_mode]; rfl) (by omega)
  | questionClose => exact h.closes rfl rfl (by decide)
  | optionClose => exact h.closes rfl rfl (by decide)
  | logicClose => exact h.closes rfl rfl (by decide)
  | embeddedClose resume =>
      have hlength := length_enclosing_le resume
      have hbefore : (Mode.embedded resume).enclosing = .embeddedOpen :: resume.mode.enclosing := by
        rw [enclosing_mode]
        rfl
      refine h.closes hbefore rfl ?_
      rw [enclosing, List.length_cons]
      omega
  | textRun => simpa [TokenKind.delimiter?, TokenKind.closer?, TokenKind.closes] using h
  | attributeKeyword => simpa [TokenKind.delimiter?, TokenKind.closer?, TokenKind.closes] using h
  | logical _ hkind =>
      have hnone : kind.delimiter? = none := by
        simp only [List.mem_cons, List.not_mem_nil, or_false] at hkind
        rcases hkind with rfl | rfl | rfl | rfl | rfl <;> rfl
      simpa [hnone] using h
  | shared _ hkind =>
      have hnone : kind.delimiter? = none := by
        simp only [List.mem_cons, List.not_mem_nil, or_false] at hkind
        rcases hkind with rfl | rfl | rfl <;> rfl
      simpa [hnone] using h
  | endOfInput => simpa [TokenKind.delimiter?, TokenKind.closer?, TokenKind.closes] using h

/-- Only the closing mark of an expression leads out of it. -/
theorem Step.of_embedded {item : Item} {resume : Resume} (h : Step (.embedded resume) item after) :
    (item.kind? = some .embeddedClose ∧ after = resume.mode) ∨
      (item.kind? ≠ some .embeddedClose ∧ after = .embedded resume) := by
  unfold Step at h
  split at h
  next kind hkind =>
    rw [hkind]
    generalize hbefore : Mode.embedded resume = before at h
    cases h with
    | embeddedClose => cases hbefore; exact .inl ⟨rfl, rfl⟩
    | embeddedOpen other => cases other <;> cases hbefore
    | logical _ hmem => exact .inr ⟨by rintro ⟨⟩; simp at hmem, rfl⟩
    | shared _ hmem => exact .inr ⟨by rintro ⟨⟩; simp at hmem, rfl⟩
    | endOfInput => exact .inr ⟨by simp, rfl⟩
    | attributeKeyword => exact .inr ⟨by simp, rfl⟩
    | _ => cases hbefore
  next hkind => exact .inr ⟨by simp [hkind], h⟩

theorem Turns.of_embeddedOpen (h : before.Turns .embeddedOpen after) : after = .embedded before.resume ∧
    before.resume.mode = before := by
  generalize hkind : TokenKind.embeddedOpen = kind at h
  cases h with
  | embeddedOpen resume => cases resume <;> exact ⟨rfl, rfl⟩
  | logical _ hmem => subst hkind; simp at hmem
  | shared _ hmem => subst hkind; simp at hmem
  | _ => cases hkind

end Mode

namespace Lexer

/-- The lexer after the given number of steps. -/
def stepped (lexer : Lexer) : Nat → Lexer
  | 0 => lexer
  | count + 1 => (stepped lexer count).next.2

theorem stepped_next (lexer : Lexer) (count : Nat) : lexer.next.2.stepped count = lexer.stepped (count + 1) := by
  induction count with
  | zero => rfl
  | succ count ih => exact congrArg (fun lexer => (Lexer.next lexer).2) ih

theorem steps_concat (lexer : Lexer) (count : Nat) :
    lexer.steps (count + 1) = lexer.steps count ++ [(lexer.stepped count).next] := by
  induction count generalizing lexer with
  | zero => rfl
  | succ count ih =>
      rw [steps, ih, ← stepped_next]
      rfl

theorem step_next (lexer : Lexer) : lexer.mode.Step lexer.next.1 lexer.next.2.mode := by
  have hfollows := Scan.follows_scan lexer.mode (lexer.mode.skip lexer.cursor).rest
  unfold Scan.Follows at hfollows
  unfold Mode.Step next Scan.item
  dsimp only
  cases houtcome : (lexer.mode.scan (lexer.mode.skip lexer.cursor).rest).outcome with
  | ok token =>
      rw [houtcome] at hfollows
      exact hfollows
  | error fault =>
      rw [houtcome] at hfollows
      exact hfollows

theorem delimiters_concat (steps : List (Item × Lexer)) (step : Item × Lexer) :
    delimiters (steps ++ [step]) = delimiters steps ++ (step.1.kind?.bind TokenKind.delimiter?).toList := by
  cases h : step.1.kind?.bind TokenKind.delimiter? with
  | none => simp [delimiters, h]
  | some kind => simp [delimiters, h]

/-- The delimiters of a run are always those around its lexer. -/
theorem bracketed_steps (source : String) (count : Nat) :
    ((ofSource source).stepped count).mode.Bracketed (delimiters ((ofSource source).steps count)) := by
  induction count with
  | zero => exact ⟨.closed .nil, rfl⟩
  | succ count ih =>
      have hstep := step_next ((ofSource source).stepped count)
      rw [steps_concat, delimiters_concat, stepped]
      unfold Mode.Step at hstep
      split at hstep
      next kind hkind =>
        rw [hkind]
        exact ih.turn hstep
      next hkind =>
        rw [hkind, hstep]
        simpa using ih

/-- Between its two marks, a lexer stays in the expression. -/
theorem stays_embedded {lexer : Lexer} {first : Nat} {resume : Resume} (more : Nat)
    (h : (lexer.stepped (first + 1)).mode = .embedded resume)
    (hopen : ∀ between, first < between → between < first + 1 + more →
      (lexer.stepped between).next.1.kind? ≠ some .embeddedClose) :
    (lexer.stepped (first + 1 + more)).mode = .embedded resume := by
  induction more with
  | zero => exact h
  | succ more ih =>
      have hmode := ih fun between hfirst hlast => hopen between hfirst (by omega)
      have hstep := step_next (lexer.stepped (first + 1 + more))
      rw [hmode] at hstep
      rcases hstep.of_embedded with ⟨hcloses, -⟩ | ⟨-, hafter⟩
      · exact absurd hcloses (hopen _ (by omega) (by omega))
      · exact hafter

/-- The lexer of a source after the given number of steps. -/
def reached (source : String) (count : Nat) : Lexer := (ofSource source).stepped count

/-- Every step is a turn of the automaton, whatever came before it. The mark that closes an expression goes back to the
mode in which the last one was opened, and at every point the delimiters so far begin a row of pairs, at most two deep,
of which those that are open tell the mode. -/
theorem steps_bracketed (source : String) (count : Nat) :
    (reached source count).mode.Step (reached source count).next.1 (reached source (count + 1)).mode ∧
      (∀ later, count < later → (reached source count).next.1.kind? = some .embeddedOpen →
        (reached source later).next.1.kind? = some .embeddedClose →
        (∀ between, count < between → between < later →
          (reached source between).next.1.kind? ≠ some .embeddedClose) →
        (∃ resume, (reached source later).mode = .embedded resume) ∧
          (reached source (later + 1)).mode = (reached source count).mode) ∧
      (∃ rest, WellNested 2 (delimiters ((ofSource source).steps count) ++ rest)) ∧
      (reached source count).mode = .within (unclosed (delimiters ((ofSource source).steps count))) := by
  have hbracketed : (reached source count).mode.Bracketed _ := bracketed_steps source count
  refine ⟨step_next _, ?_, ?_, ?_⟩
  · intro later hlater hopens hcloses hbetween
    have hfirst := step_next (reached source count)
    rw [Mode.Step, hopens] at hfirst
    obtain ⟨hembedded, hresume⟩ := hfirst.of_embeddedOpen
    obtain ⟨more, rfl⟩ : ∃ more, later = count + 1 + more := ⟨later - (count + 1), by omega⟩
    have hmode : (reached source (count + 1 + more)).mode = _ := stays_embedded more hembedded hbetween
    have hlast := step_next (reached source (count + 1 + more))
    rw [hmode] at hlast
    refine ⟨⟨_, hmode⟩, ?_⟩
    rcases hlast.of_embedded with ⟨-, hafter⟩ | ⟨hnot, -⟩
    · rw [← hresume]
      exact hafter
    · exact absurd hcloses hnot
  · obtain ⟨rest, hrest⟩ := hbracketed.opened.exists_wellNested
    have hlength : (reached source count).mode.enclosing.length ≤ 2 := by
      cases (reached source count).mode with
      | embedded resume => exact Nat.succ_le_succ (Mode.length_enclosing_le resume)
      | _ => decide
    rw [Nat.sub_add_cancel hlength] at hrest
    exact ⟨rest, hrest⟩
  · rw [hbracketed.unclosed, Mode.within_enclosing]

end Lexer

end Questionnaire
