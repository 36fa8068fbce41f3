import Questionnaire.Proofs.Token.LineEnds
import Questionnaire.Proofs.Token.Rendering

/-! Sources whose lines end in a carriage return and a line feed. The carriage return is passed as a blank, lies in a
remark, ends in a stretch of free text or stands in a string that its line does not close; and the line feed behind it
starts the count of columns anew. Main statement: but for the free texts, such a source has the run of the source with
line feeds alone. -/

namespace Questionnaire

namespace Text

/-- The text with a carriage return before each line feed. -/
def withReturns (text : List Char) : List Char := text.flatMap fun c => if c = '\n' then ['\r', '\n'] else [c]

theorem withReturns_feed (text : List Char) : withReturns ('\n' :: text) = '\r' :: '\n' :: withReturns text := rfl

theorem withReturns_cons {c : Char} (h : c ≠ '\n') (text : List Char) :
    withReturns (c :: text) = c :: withReturns text := by
  rw [withReturns, List.flatMap_cons, if_neg h]
  rfl

theorem withReturns_append (left right : List Char) :
    withReturns (left ++ right) = withReturns left ++ withReturns right := List.flatMap_append

theorem keepsLines_withReturns : KeepsLines withReturns where
  plain _ text h := withReturns_cons h text
  feed _ _ hc := .inr (Option.some.inj hc).symm
  nil _ hc := by cases hc

/-- Only blanks are added at the end. -/
theorem trimEnd_withReturns (text : List Char) : trimEnd (withReturns text) = withReturns (trimEnd text) := by
  induction text using List.reverseRecOn with
  | nil => rfl
  | append_singleton text c ih =>
      by_cases hfeed : c = '\n'
      · subst hfeed
        have hlast : withReturns (text ++ ['\n']) = withReturns text ++ ['\r'] ++ ['\n'] := by
          rw [withReturns_append, List.append_assoc]
          rfl
        rw [hlast, trimEnd_concat (by decide), trimEnd_concat (by decide), trimEnd_concat (by decide), ih]
      · have hlast : withReturns [c] = [c] := withReturns_cons hfeed []
        by_cases hblank : isBlank c = true
        · rw [withReturns_append, hlast, trimEnd_concat hblank, trimEnd_concat hblank, ih]
        · rw [withReturns_append, hlast, trimEnd, trimEnd, List.reverse_concat, List.reverse_concat,
            List.dropWhile_cons_of_neg hblank, List.dropWhile_cons_of_neg hblank, List.reverse_cons, List.reverse_cons,
            List.reverse_reverse, List.reverse_reverse, withReturns_append, hlast]

end Text

open Text (withReturns withReturns_feed withReturns_cons withReturns_append keepsLines_withReturns)

theorem Position.past_withReturns (position : Position) (text : List Char) :
    position.past (withReturns text) = position.past text := by
  induction text generalizing position with
  | nil => rfl
  | cons c text ih =>
      by_cases hfeed : c = '\n'
      · subst hfeed
        rw [withReturns_feed, past_cons, past_cons, past_cons, ih]
        rfl
      · rw [withReturns_cons hfeed, past_cons, past_cons, ih]

namespace Cursor

def withReturns (cursor : Cursor) : Cursor := ⟨Text.withReturns cursor.rest, cursor.position⟩

theorem skipWhile_withReturns {blank : Char → Bool} (hfeed : blank '\n' = true) (hreturn : blank '\r' = true)
    (cursor : Cursor) : cursor.withReturns.skipWhile blank = (cursor.skipWhile blank).withReturns := by
  obtain ⟨text, position⟩ := cursor
  induction text generalizing position with
  | nil => rfl
  | cons c text ih =>
      by_cases hc : c = '\n'
      · subst hc
        rw [skipWhile_cons hfeed, ← ih, withReturns, withReturns_feed, skipWhile_cons hreturn, skipWhile_cons hfeed]
        rfl
      · rw [withReturns, withReturns_cons hc]
        by_cases hblank : blank c = true
        · rw [skipWhile_cons hblank, skipWhile_cons hblank, ← ih]
          rfl
        · have hhead : ∀ rest : List Char, ∀ d ∈ (c :: rest).head?, blank d = false := by
            rintro rest d ⟨⟩
            simpa using hblank
          rw [skipWhile_of_head (hhead _), skipWhile_of_head (hhead _), withReturns, withReturns_cons hc]

/-- The carriage return that ends a remark is passed with it, where otherwise it is passed as a space. -/
theorem skipRemarks_passRemark (cursor : Cursor) :
    cursor.withReturns.passRemark.skipRemarks = cursor.passRemark.withReturns.skipRemarks := by
  obtain ⟨text, position⟩ := cursor
  obtain ⟨line, hline, rfl | ⟨rest, rfl⟩⟩ := exists_line text
  · have hsame : Text.withReturns text = text := by
      rw [← List.append_nil text, keepsLines_withReturns.append_change hline]
      rfl
    rw [withReturns, hsame, passRemark_last hline]
    rfl
  · have hreturn : '\n' ∉ line ++ ['\r'] := by simpa using hline
    have hlines : Text.withReturns (line ++ '\n' :: rest) = line ++ ['\r'] ++ '\n' :: Text.withReturns rest := by
      rw [keepsLines_withReturns.append_change hline, withReturns_feed, List.append_assoc]
      rfl
    rw [withReturns, hlines, passRemark_line hreturn, passRemark_line hline, withReturns, withReturns_feed,
      skipRemarks_cons (by decide : Text.isSpace '\r' = true), Position.past_append]
    rfl

theorem skipRemarks_withReturns (cursor : Cursor) :
    cursor.withReturns.skipRemarks = cursor.skipRemarks.withReturns := by
  fun_induction skipRemarks cursor with
  | case1 cursor hremark ih =>
      rw [← ih, ← skipRemarks_passRemark, skipRemarks, skipWhile_withReturns (by decide) (by decide), dif_pos]
      rwa [withReturns, keepsLines_withReturns.startsRemark_change]
  | case2 cursor hremark =>
      rw [skipRemarks, skipWhile_withReturns (by decide) (by decide), dif_neg]
      rwa [withReturns, keepsLines_withReturns.startsRemark_change]

end Cursor

theorem Mode.skip_withReturns (mode : Mode) (cursor : Cursor) :
    mode.skip cursor.withReturns = (mode.skip cursor).withReturns := by
  cases mode with
  | text => exact Cursor.skipWhile_withReturns (by decide) (by decide) cursor
  | questionAttributes => exact Cursor.skipWhile_withReturns (by decide) (by decide) cursor
  | optionAttributes => exact Cursor.skipWhile_withReturns (by decide) (by decide) cursor
  | embedded resume => exact Cursor.skipRemarks_withReturns cursor
  | logic => exact Cursor.skipRemarks_withReturns cursor

namespace Lexeme

/-- No backslash takes a line feed along. -/
def Unescaped (text : List Char) : Prop := ¬['\\', '\n'] <:+: text

theorem Unescaped.of_suffix {text rest : List Char} (h : Unescaped text) (hrest : rest <:+ text) : Unescaped rest :=
  fun hmark => h (hmark.trans hrest.isInfix)

theorem stringBody_feed (quote : Char) (rest : List Char) : stringBody quote ('\n' :: rest) = ([], '\n' :: rest) := by
  cases rest with
  | nil => rw [stringBody, if_pos (.inl rfl)]
  | cons d rest => rw [stringBody, if_pos (.inl rfl)]

/-- A string that its line does not close is not closed either where the line ends in a carriage return. -/
theorem stringBody_withReturns_ne {quote : Char} {text : List Char} (hquote : isQuote quote = true)
    (hescape : Unescaped text) (hopen : ∀ after, (stringBody quote text).2 ≠ quote :: after) :
    ∀ after, (stringBody quote (withReturns text)).2 ≠ quote :: after := by
  have hbackslash : '\\' ≠ quote := by rintro rfl; cases hquote
  have hreturn : '\r' ≠ quote := by rintro rfl; cases hquote
  have hfeed : '\n' ≠ quote := by rintro rfl; cases hquote
  have hends : ∀ rest after, (stringBody quote (withReturns ('\n' :: rest))).2 ≠ quote :: after := by
    intro rest after hclosed
    rw [withReturns_feed, stringBody_plain (by decide) hreturn (by decide), stringBody_feed] at hclosed
    exact hfeed (List.cons.inj hclosed).1
  fun_induction stringBody quote text with
  | case1 => exact hopen
  | case2 c hstop =>
      rcases hstop with rfl | rfl
      · exact hends []
      · exact absurd rfl (hopen [])
  | case3 c hstop =>
      obtain ⟨hc, hc'⟩ := not_or.mp hstop
      intro after hclosed
      rw [withReturns_cons hc] at hclosed
      simp [withReturns, stringBody, hstop] at hclosed
  | case4 c d rest hstop =>
      rcases hstop with rfl | rfl
      · exact hends (d :: rest)
      · exact absurd rfl (hopen (d :: rest))
  | case5 d rest body left hsplit hstop ih =>
      have hd : d ≠ '\n' := by
        rintro rfl
        exact hescape ⟨[], rest, rfl⟩
      have hlater : rest <:+ '\\' :: d :: rest := (List.suffix_cons d rest).trans (List.suffix_cons _ _)
      rw [withReturns_cons (by decide), withReturns_cons hd, stringBody_escape hbackslash]
      rw [hsplit] at ih
      exact ih (hescape.of_suffix hlater) hopen
  | case6 c d rest hstop hplain body left hsplit ih =>
      obtain ⟨hc, hc'⟩ := not_or.mp hstop
      rw [withReturns_cons hc, stringBody_plain hc hc' hplain]
      rw [hsplit] at ih
      exact ih (hescape.of_suffix (List.suffix_cons c _)) hopen

end Lexeme

/-- A token as it stands in a source with carriage returns. Only free text holds line feeds as they are. -/
def Token.withReturns (token : Token) : Token :=
  if token.kind = .textRun then { token with text := String.ofList (Text.withReturns token.text.toList) } else token

def Item.withReturns (item : Item) : Item := item.map Token.withReturns

theorem Item.isLast_withReturns (item : Item) : Item.isLast item.withReturns = Item.isLast item := by
  cases item with
  | error diagnostic => rfl
  | ok token =>
      rw [withReturns, Except.map, Token.withReturns]
      split_ifs <;> rfl

namespace Scan

variable {mode : Mode}

/-- The scan answers the same but for the line ends in a free text, and goes on from the same place. -/
structure Returns (scan other : Scan) : Prop where
  mode : other.mode = scan.mode
  item : ∀ position, other.item position = (scan.item position).withReturns
  rest : ∀ token, scan.outcome = .ok token → other.rest = withReturns scan.rest
  past : ∀ token, scan.outcome = .ok token → ∀ position : Position, position.past other.taken = position.past scan.taken

theorem returns_changed {scan : Scan} (h : ∀ word, scan.outcome ≠ .ok (.textRun, word)) :
    scan.Returns (scan.changed withReturns) where
  mode := rfl
  item position := by
    obtain ⟨taken, rest, mode, outcome⟩ := scan
    cases outcome with
    | error fault => rfl
    | ok token =>
        obtain ⟨kind, word⟩ := token
        have hkind : kind ≠ .textRun := by
          rintro rfl
          exact h word rfl
        simp only [changed, item, Item.withReturns, Except.map, Token.withReturns, if_neg hkind]
  rest _ _ := rfl
  past _ _ _ := rfl

theorem textRun_withReturns (text : List Char) :
    textRun (withReturns text) = (withReturns (textRun text).1, withReturns (textRun text).2) := by
  induction text with
  | nil => rfl
  | cons c text ih =>
      have hopener := keepsLines_withReturns.at?_change (c :: text)
      by_cases hc : c = '\n'
      · subst hc
        have hreturn : textRun (withReturns ('\n' :: text)) =
            ('\r' :: '\n' :: (textRun (withReturns text)).1, (textRun (withReturns text)).2) := rfl
        rw [hreturn, ih]
        rfl
      · rw [withReturns_cons hc] at hopener ⊢
        rw [textRun, textRun, hopener]
        split_ifs
        · rw [withReturns_cons hc]
          rfl
        · rw [ih, withReturns_cons hc]

/-- Free text is answered in the mode of free text alone. -/
theorem mode_of_textRun {text : List Char} {word : String} (h : (mode.scan text).outcome = .ok (.textRun, word)) :
    mode = .text := by
  have hturns := follows_scan mode text
  rw [Follows, h] at hturns
  generalize (mode.scan text).mode = after at hturns
  cases hturns with
  | textRun => rfl
  | logical _ hkind => exact absurd hkind (by decide)
  | shared _ hkind => exact absurd hkind (by decide)

theorem returns_inText (text : List Char) : (inText text).Returns (inText (withReturns text)) := by
  cases hopener : Opener.at? text with
  | some opener =>
      obtain ⟨rest, rfl⟩ := Opener.at?_eq_some_iff.mp hopener
      have hmark : '\n' ∉ opener.spelling := by cases opener <;> decide
      rw [keepsLines_withReturns.append_change hmark, inText_spelling, inText_spelling, opening_spelling,
        opening_spelling]
      exact returns_changed fun word h => by cases opener <;> cases h
  | none =>
      cases text with
      | nil => exact returns_changed fun word h => by cases h
      | cons c text =>
          have hrun : textRun (c :: text) = (c :: (textRun text).1, (textRun text).2) := by
            rw [textRun, hopener]
            rfl
          have hreturns := textRun_withReturns (c :: text)
          rw [hrun] at hreturns
          have hne : withReturns (c :: (textRun text).1) ≠ [] := by
            rw [withReturns, List.flatMap_cons]
            split_ifs <;> simp
          rw [inText_of_textRun hrun (List.cons_ne_nil _ _), inText_of_textRun hreturns hne]
          exact {
            mode := rfl
            item := fun position => by
              simp only [item, Item.withReturns, Except.map, Token.withReturns, if_pos, String.toList_ofList,
                Text.trimEnd_withReturns]
            rest := fun _ _ => rfl
            past := fun _ _ position => position.past_withReturns _ }

theorem returns_scan {c : Char} {text : List Char} (hc : c ≠ '\n') (hescape : Lexeme.Unescaped (c :: text)) :
    (mode.scan (c :: text)).Returns (mode.scan (withReturns (c :: text))) := by
  by_cases hmode : mode = .text
  · subst hmode
    exact returns_inText (c :: text)
  · have htext : ∀ word, (mode.scan (c :: text)).outcome ≠ .ok (.textRun, word) :=
      fun word h => hmode (mode_of_textRun h)
    have hescape' : Lexeme.Unescaped text := hescape.of_suffix (List.suffix_cons c text)
    have hline : ∀ rest, '\\' :: '\n' :: rest <:+ text → withReturns ('\n' :: rest) = '\n' :: withReturns rest :=
      fun rest hrest => absurd ⟨[], rest, rfl⟩ (hescape'.of_suffix hrest)
    rw [withReturns_cons hc]
    by_cases hopen : Lexeme.isQuote c = true ∧ ∀ after, (Lexeme.stringBody c text).2 ≠ c :: after
    · obtain ⟨hquote, hopen⟩ := hopen
      obtain ⟨houtcome, hafter⟩ := string_of_open mode hopen
      obtain ⟨hagain, hlast⟩ := string_of_open mode (Lexeme.stringBody_withReturns_ne hquote hescape' hopen)
      rw [scan_quote hmode hquote, scan_quote hmode hquote]
      have hfault : ∀ token, (string mode c text).outcome ≠ .ok token := fun token h => by
        rw [houtcome] at h
        cases h
      exact {
        mode := hlast.trans hafter.symm
        item := fun position => by
          rw [item, item, houtcome, hagain]
          rfl
        rest := fun token h => absurd h (hfault token)
        past := fun token h => absurd h (hfault token) }
    · rw [scan_change keepsLines_withReturns hmode hc fun hquote => ?_]
      · exact returns_changed htext
      · obtain ⟨after, hafter⟩ := not_forall.mp (not_and.mp hopen hquote)
        exact string_change keepsLines_withReturns hquote hline (not_not.mp hafter)

end Scan

namespace Lexer

def withReturns (lexer : Lexer) : Lexer := { lexer with cursor := lexer.cursor.withReturns }

theorem suffix_next (lexer : Lexer) : lexer.next.2.cursor.rest <:+ lexer.cursor.rest := by
  obtain ⟨gap, hskips⟩ := lexer.mode.exists_skips lexer.cursor
  have hscan := (Scan.fits_scan lexer.mode (lexer.mode.skip lexer.cursor).rest).append
  rw [hskips.rest]
  exact (List.IsSuffix.trans ⟨_, hscan⟩ (List.suffix_append gap _))

theorem next_withReturns {lexer : Lexer} (hescape : Lexeme.Unescaped lexer.cursor.rest) :
    lexer.withReturns.next.1 = lexer.next.1.withReturns ∧ lexer.withReturns.next.2.mode = lexer.next.2.mode ∧
      (Item.isLast lexer.next.1 = false → lexer.withReturns.next.2 = lexer.next.2.withReturns) := by
  have hskip : lexer.withReturns.mode.skip lexer.withReturns.cursor = _ := lexer.mode.skip_withReturns lexer.cursor
  have hreturns : (lexer.mode.scan (lexer.mode.skip lexer.cursor).rest).Returns
      (lexer.mode.scan (Text.withReturns (lexer.mode.skip lexer.cursor).rest)) := by
    obtain ⟨gap, hskips⟩ := lexer.mode.exists_skips lexer.cursor
    have hblank := (Mode.stops_iff.mp hskips.stops).1
    have hleft := hescape.of_suffix ⟨gap, hskips.rest.symm⟩
    generalize (lexer.mode.skip lexer.cursor).rest = text at hblank hleft
    cases text with
    | nil => exact Scan.scan_nil lexer.mode ▸ Scan.returns_changed fun word h => by cases h
    | cons c text =>
        refine Scan.returns_scan ?_ hleft
        rintro rfl
        have hfeed := hblank '\n' rfl
        rw [lexer.mode.isBlank_lineFeed] at hfeed
        cases hfeed
  rw [next_of_scan hskip rfl, next_of_scan rfl rfl]
  refine ⟨hreturns.item _, hreturns.mode, fun hlast => ?_⟩
  dsimp only [Scan.item] at hlast
  split at hlast
  next kind word houtcome =>
    rw [withReturns, Cursor.withReturns, Cursor.withReturns, hreturns.rest _ houtcome, hreturns.past _ houtcome,
      hreturns.mode]
    rfl
  next => cases hlast

/-- The item and the mode of each step are those of the source with line feeds alone. -/
theorem run_withReturns {lexer : Lexer} (hescape : Lexeme.Unescaped lexer.cursor.rest) :
    lexer.withReturns.run.map (fun step => (step.1, step.2.mode)) =
      lexer.run.map fun step => (step.1.withReturns, step.2.mode) := by
  induction hlength : lexer.cursor.rest.length using Nat.strong_induction_on generalizing lexer with
  | _ length ih =>
    subst hlength
    by_cases hdone : lexer.done = true
    · have hdone' : lexer.withReturns.done = true := hdone
      rw [run_of_done hdone, run_of_done hdone']
      rfl
    · have hopen : lexer.done = false := by simpa using hdone
      have hopens : lexer.withReturns.done = false := hopen
      obtain ⟨hitem, hmode, hafter⟩ := next_withReturns hescape
      have hshort : Item.isLast lexer.next.1 = false → _ := next_length_lt
      have hsuffix := lexer.suffix_next
      rcases hnext : lexer.next with ⟨item, after⟩
      rcases hagain : lexer.withReturns.next with ⟨other, last⟩
      rw [hnext] at hitem hmode hafter hshort hsuffix
      rw [hagain] at hitem hmode hafter
      dsimp only at hitem hmode hafter hshort hsuffix
      have hlast := Item.isLast_withReturns item
      rw [← hitem] at hlast
      cases hends : Item.isLast item with
      | true =>
          rw [run_of_last hopen hnext hends, run_of_last hopens hagain (hlast.trans hends), List.map_singleton,
            List.map_singleton, hitem, hmode]
      | false =>
          have hlater := ih _ (hshort hends) (hescape.of_suffix hsuffix) rfl
          rw [run_of_not_last hopen hnext hends, run_of_not_last hopens hagain (hlast.trans hends), List.map_cons,
            List.map_cons, hitem, hmode, hafter hends, hlater]

end Lexer

/-- Where no backslash stands before a line feed, carriage returns before the line feeds change nothing in the run of a
lexer but that they stand in the free texts too. -/
theorem run_ofSource_withReturns {source : String} (h : ¬['\\', '\n'] <:+: source.toList) :
    (Lexer.ofSource (String.ofList (withReturns source.toList))).run.map (fun step => (step.1, step.2.mode)) =
      (Lexer.ofSource source).run.map fun step => (step.1.withReturns, step.2.mode) := by
  have hlexer : Lexer.ofSource (String.ofList (withReturns source.toList)) = (Lexer.ofSource source).withReturns := by
    rw [Lexer.ofSource, String.toList_ofList]
    rfl
  rw [hlexer]
  exact Lexer.run_withReturns h

theorem run_ofSource_withReturns_open_string :
    let source := "one\ntwo\n<% // last\n x = 'a\\'b\n"
    ¬['\\', '\n'] <:+: source.toList ∧
      String.ofList (withReturns source.toList) = "one\r\ntwo\r\n<% // last\r\n x = 'a\\'b\r\n" ∧
      (Lexer.ofSource (String.ofList (withReturns source.toList))).run.map (fun step => (step.1, step.2.mode)) =
        (Lexer.ofSource source).run.map (fun step => (step.1.withReturns, step.2.mode)) ∧
      (Lexer.ofSource source).run.map (fun step => (step.1.withReturns, step.2.mode)) =
        [(.ok ⟨.textRun, "one\r\ntwo", ⟨1, 1⟩⟩, .text), (.ok ⟨.logicOpen, "<%", ⟨3, 1⟩⟩, .logic),
          (.ok ⟨.identifier, "x", ⟨4, 2⟩⟩, .logic), (.ok ⟨.operator, "=", ⟨4, 4⟩⟩, .logic),
          (.error ⟨.unterminatedString, ⟨4, 6⟩⟩, .logic)] := by
  have hescape : ¬['\\', '\n'] <:+: "one\ntwo\n<% // last\n x = 'a\\'b\n".toList := by decide +kernel
  exact ⟨hescape, by cbv, run_ofSource_withReturns hescape, by cbv⟩

end Questionnaire
