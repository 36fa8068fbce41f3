import Mathlib
import Questionnaire.Proofs.Token.Rereading
import Questionnaire.Proofs.Token.Stream

/-! The tokens of a source written out again, one to a line. Main statement: the text so written is read as the same
tokens, and the mode after each of them is the same. -/

namespace Questionnaire

/-- The kind and the text, wherever the token stands. -/
def Token.content (token : Token) : TokenKind × String := (token.kind, token.text)

/-- The line of a token. The end of input has none. -/
def Token.line (token : Token) : List Char :=
  if token.kind = .endOfInput then [] else token.kind.written token.text ++ ['\n']

def rendered (tokens : List Token) : List Char := tokens.flatMap Token.line

theorem Scan.scan_nil (mode : Mode) : mode.scan [] = endOfInput mode := by
  cases mode <;> rfl

theorem Scan.item_eq_ok {scan : Scan} {position : Position} {token : Token} (h : scan.item position = .ok token) :
    scan.outcome = .ok (token.kind, token.text) := by
  unfold Scan.item at h
  split at h
  next kind text houtcome =>
    cases h
    exact houtcome
  next => cases h

theorem rendered_cons {token : Token} (h : token.kind ≠ .endOfInput) (tokens : List Token) :
    rendered (token :: tokens) = token.kind.written token.text ++ '\n' :: rendered tokens := by
  rw [rendered, List.flatMap_cons, Token.line, if_neg h, List.append_assoc]
  rfl

theorem rendered_endOfInput {token : Token} (h : token.kind = .endOfInput) : rendered [token] = [] := by
  rw [rendered, List.flatMap_cons, Token.line, if_pos h]
  rfl

theorem Mode.stops_skip (mode : Mode) (cursor : Cursor) : mode.Stops (mode.skip cursor).rest := by
  obtain ⟨gap, hskips⟩ := mode.exists_skips cursor
  exact hskips.stops

namespace Lexer

variable {lexer reader : Lexer} {tokens : List Token}

/-- The first token of a run without faults. -/
theorem exists_token (hopen : lexer.done = false) (hitems : lexer.items = tokens.map .ok) :
    ∃ token after others, lexer.next = (.ok token, after) ∧ tokens = token :: others ∧
      (token.kind = .endOfInput → others = [] ∧ lexer.run = [(.ok token, { after with done := true })]) ∧
      (token.kind ≠ .endOfInput → after.items = others.map .ok ∧ lexer.run = (.ok token, after) :: after.run) := by
  cases tokens with
  | nil =>
      rw [items, run_of_open hopen] at hitems
      cases hitems
  | cons token others =>
      have hfirst : lexer.next.1 = .ok token := by
        rw [items, run_of_open hopen] at hitems
        exact (List.cons.inj hitems).1
      have hnext : lexer.next = (.ok token, lexer.next.2) := by rw [← hfirst]
      refine ⟨token, lexer.next.2, others, hnext, rfl, fun hkind => ?_, fun hkind => ?_⟩
      · have hrun := run_of_last hopen hnext (by simp [Item.isLast, hkind])
        rw [items, hrun] at hitems
        exact ⟨List.map_eq_nil_iff.mp (List.cons.inj hitems).2.symm, hrun⟩
      · have hrun := run_of_not_last hopen hnext (by simpa [Item.isLast] using hkind)
        rw [items, hrun] at hitems
        exact ⟨(List.cons.inj hitems).2, hrun⟩

/-- Where free text stops, what is written next stops it too. -/
theorem textRun_rendered (hopen : lexer.done = false) (hmode : lexer.mode = .text)
    (hrest : Scan.textRun lexer.cursor.rest = ([], lexer.cursor.rest)) (hitems : lexer.items = tokens.map .ok) :
    Scan.textRun (rendered tokens) = ([], rendered tokens) := by
  obtain ⟨token, after, others, hnext, rfl, hlast, -⟩ := exists_token hopen hitems
  have houtcome := Scan.item_eq_ok (congrArg Prod.fst hnext)
  obtain ⟨⟨text, position⟩, mode, done⟩ := lexer
  dsimp only at hmode hrest
  subst hmode
  have hskip : Mode.Stops .text text → (Mode.text.skip ⟨text, position⟩).rest = text := fun hstops =>
    @Mode.rest_skip _ [] _ (List.forall_mem_nil _) hstops position
  rcases Scan.eq_nil_or_mark hrest with rfl | ⟨opener, rest, rfl⟩
  · rw [hskip (Mode.stops_iff.mpr (by simp [Mode.isLogical]))] at houtcome
    obtain ⟨hkind, -⟩ := Prod.mk.inj (Except.ok.inj houtcome)
    obtain ⟨rfl, -⟩ := hlast hkind.symm
    rw [rendered_endOfInput hkind.symm]
    rfl
  · have hstops : Mode.Stops .text (opener.spelling ++ rest) :=
      Mode.stops_iff.mpr ⟨by cases opener <;> simp [Opener.spelling, Mode.isBlank] <;> decide, by simp [Mode.isLogical]⟩
    rw [hskip hstops] at houtcome
    change (Scan.inText _).outcome = _ at houtcome
    rw [Scan.inText_spelling, Scan.opening_spelling] at houtcome
    obtain ⟨hkind, htext⟩ := Prod.mk.inj (Except.ok.inj houtcome)
    have hverbatim : opener.kind.isVerbatim = true := by cases opener <;> rfl
    have hmore : token.kind ≠ .endOfInput := by
      rw [← hkind]
      cases opener <;> decide
    rw [rendered_cons hmore, ← hkind, ← htext, TokenKind.written_ofList hverbatim]
    exact Scan.textRun_of_at? (Opener.at?_spelling opener _)

theorem next_of_outcome {text : List Char} {kind : TokenKind} {word : String}
    (hskip : (lexer.mode.skip lexer.cursor).rest = text) (h : (lexer.mode.scan text).outcome = .ok (kind, word)) :
    ∃ position after, lexer.next = (.ok ⟨kind, word, position⟩, after) ∧ after.done = lexer.done ∧
      after.mode = (lexer.mode.scan text).mode ∧ after.cursor.rest = (lexer.mode.scan text).rest := by
  subst hskip
  refine ⟨(lexer.mode.skip lexer.cursor).position, lexer.next.2, ?_, rfl, rfl, rfl⟩
  rw [next_of_scan rfl rfl, Scan.item, h]

/-- The end of input has no text, and leaves the mode as it is. -/
theorem next_endOfInput {after : Lexer} {token : Token} (h : lexer.next = (.ok token, after))
    (hkind : token.kind = .endOfInput) : token.content = (.endOfInput, "") ∧ after.mode = lexer.mode := by
  have houtcome := Scan.item_eq_ok (congrArg Prod.fst h)
  rw [hkind] at houtcome
  have hend := (lexer.mode.stops_skip lexer.cursor).tells.atEnd _ houtcome
  rw [hend, Scan.scan_nil] at houtcome
  obtain ⟨-, htext⟩ := Prod.mk.inj (Except.ok.inj houtcome)
  obtain rfl : lexer.next.2 = after := congrArg Prod.snd h
  refine ⟨by rw [Token.content, hkind, htext], ?_⟩
  change (lexer.mode.scan (lexer.mode.skip lexer.cursor).rest).mode = lexer.mode
  rw [hend, Scan.scan_nil]
  rfl

/-- A lexer that has only line feeds left answers the end of input. -/
theorem run_lineFeeds (hopen : lexer.done = false) (hrest : ∀ c ∈ lexer.cursor.rest, c = '\n') :
    ∃ position after, lexer.run = [(.ok ⟨.endOfInput, "", position⟩, after)] ∧ after.mode = lexer.mode := by
  have hstops : lexer.mode.Stops [] := Mode.stops_iff.mpr ⟨by simp, fun _ => rfl⟩
  have hskip := Mode.rest_skip hrest hstops lexer.cursor.position
  rw [List.append_nil] at hskip
  obtain ⟨position, after, hnext, -⟩ := next_of_outcome hskip (by rw [Scan.scan_nil]; rfl)
  exact ⟨position, _, run_of_last hopen hnext rfl, (next_endOfInput hnext rfl).2⟩

/-- A run without faults is repeated by a lexer in the same mode over what its tokens are written as. -/
theorem items_rendered {gap : List Char} (hopen : lexer.done = false) (hreader : reader.done = false)
    (hmode : reader.mode = lexer.mode) (hgap : ∀ c ∈ gap, c = '\n')
    (hrest : reader.cursor.rest = gap ++ rendered tokens) (hitems : lexer.items = tokens.map .ok) :
    ∃ again : List Token, reader.items = again.map .ok ∧ again.map Token.content = tokens.map Token.content ∧
      reader.run.map (·.2.mode) = lexer.run.map (·.2.mode) := by
  induction tokens generalizing lexer reader gap with
  | nil =>
      obtain ⟨token, after, others, -, hnil, -⟩ := exists_token hopen hitems
      cases hnil
  | cons token tokens ih =>
      obtain ⟨_, after, _, hnext, hcons, hlast, hmore⟩ := exists_token hopen hitems
      cases hcons
      by_cases hkind : token.kind = .endOfInput
      · obtain ⟨rfl, hrun⟩ := hlast hkind
        obtain ⟨hcontent, hafter⟩ := next_endOfInput hnext hkind
        rw [rendered_endOfInput hkind, List.append_nil] at hrest
        rw [← hrest] at hgap
        obtain ⟨position, last, hagain, hlast⟩ := run_lineFeeds hreader hgap
        refine ⟨[⟨.endOfInput, "", position⟩], by rw [items, hagain]; rfl, ?_, ?_⟩
        · rw [List.map_singleton, List.map_singleton, hcontent]
          rfl
        · rw [hagain, hrun, List.map_singleton, List.map_singleton, hlast, hafter, hmode]
      · obtain ⟨hitems, hrun⟩ := hmore hkind
        have hstops := lexer.mode.stops_skip lexer.cursor
        have houtcome := Scan.item_eq_ok (congrArg Prod.fst hnext)
        have hafter : (lexer.mode.scan (lexer.mode.skip lexer.cursor).rest).mode = after.mode :=
          congrArg (fun step => step.2.mode) hnext
        have hopens : after.done = false := (congrArg (fun step => step.2.done) hnext).symm.trans hopen
        have htextRun : token.kind = .textRun → Scan.textRun (rendered tokens) = ([], rendered tokens) := by
          intro htext
          rw [htext] at houtcome
          obtain ⟨hmode, hrest⟩ := Scan.textRun_of_outcome houtcome
          obtain rfl : lexer.next.2 = after := congrArg Prod.snd hnext
          exact textRun_rendered hopens hmode hrest hitems
        obtain ⟨hanswer, hturn, gap', hgap', hleft⟩ :=
          Scan.rereads_scan hstops token.kind token.text (rendered tokens) houtcome hkind htextRun
        have hskip := Mode.rest_skip hgap (hstops.written houtcome hkind (rendered tokens)) reader.cursor.position
        rw [← rendered_cons hkind, ← hrest, ← hmode] at hskip
        rw [hafter] at hturn
        rw [← rendered_cons hkind, ← hmode] at hanswer hturn hleft
        obtain ⟨position, last, hreads, hdone, hlast, hrest⟩ := next_of_outcome hskip hanswer
        obtain ⟨again, htokens, hcontents, hmodes⟩ := ih hopens (hdone.trans hreader) (hlast.trans hturn) hgap'
          (hrest.trans hleft) hitems
        have hagain := run_of_not_last hreader hreads (by simpa [Item.isLast] using hkind)
        refine ⟨⟨token.kind, token.text, position⟩ :: again, ?_, ?_, ?_⟩
        · rw [items, hagain, List.map_cons, List.map_cons, ← htokens]
          rfl
        · rw [List.map_cons, List.map_cons, hcontents]
          rfl
        · rw [hagain, hrun, List.map_cons, List.map_cons, hmodes, hlast, hturn]

end Lexer

/-- The tokens of a source, written again one to a line, are read as the same tokens, with the same modes. -/
theorem tokenize_rendered {source : String} {tokens : List Token} (h : tokenize source = .ok tokens) :
    ∃ again, tokenize (String.ofList (rendered tokens)) = .ok again ∧
      again.map Token.content = tokens.map Token.content ∧
      (Lexer.ofSource (String.ofList (rendered tokens))).run.map (·.2.mode) =
        (Lexer.ofSource source).run.map (·.2.mode) := by
  have hopen : (Lexer.ofSource source).done = false := rfl
  have hreader : (Lexer.ofSource (String.ofList (rendered tokens))).done = false := rfl
  have hrest : (Lexer.ofSource (String.ofList (rendered tokens))).cursor.rest = [] ++ rendered tokens :=
    String.toList_ofList
  obtain ⟨again, hagain, hcontents, hmodes⟩ :=
    Lexer.items_rendered hopen hreader rfl (List.forall_mem_nil _) hrest (tokenize_eq_ok_iff.mp h)
  exact ⟨again, tokenize_eq_ok_iff.mpr hagain, hcontents, hmodes⟩

theorem tokenize_rendered_attribute :
    let source := "hi <<@name = 'a\"b'>>"
    let tokens : List Token := [⟨.textRun, "hi", ⟨1, 1⟩⟩, ⟨.questionOpen, "<<", ⟨1, 4⟩⟩,
      ⟨.attributeKeyword, "name", ⟨1, 6⟩⟩, ⟨.punctuation, "=", ⟨1, 12⟩⟩, ⟨.string, "a\"b", ⟨1, 14⟩⟩,
      ⟨.questionClose, ">>", ⟨1, 19⟩⟩, ⟨.endOfInput, "", ⟨1, 21⟩⟩]
    tokenize source = .ok tokens ∧ String.ofList (rendered tokens) = "hi\n<<\n@name\n=\n\"a\\\"b\"\n>>\n" ∧
      ∃ again, tokenize (String.ofList (rendered tokens)) = .ok again ∧
        again.map Token.content = tokens.map Token.content ∧
        (Lexer.ofSource (String.ofList (rendered tokens))).run.map (·.2.mode) =
          (Lexer.ofSource source).run.map (·.2.mode) := by
  intro source tokens
  have htokens : tokenize source = .ok tokens := by cbv
  exact ⟨htokens, by cbv, tokenize_rendered htokens⟩

end Questionnaire
