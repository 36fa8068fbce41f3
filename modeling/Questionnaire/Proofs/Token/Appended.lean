import Questionnaire.Proofs.Token.LineEnds
import Questionnaire.Proofs.Token.Relocation
import Questionnaire.Proofs.Token.Rendering

/-! Texts that are put behind one another. A lexer that comes to the end of the first text without a fault and within
free text goes on with the second one as if it began there: what it knows is the place alone, and a mark behind the
blanks between the texts ends the last free text where it ended before. -/

namespace Questionnaire

namespace Text

/-- The text, with another one on the next line. -/
def followedBy (tail text : List Char) : List Char := text ++ '\n' :: tail

theorem keepsLines_followedBy (tail : List Char) : KeepsLines (followedBy tail) where
  plain _ _ _ := rfl
  feed _ _ hc := .inl (Option.some.inj hc).symm
  nil _ hc := .inl (Option.some.inj hc).symm

theorem trimEnd_append_blanks (text : List Char) {blanks : List Char} (h : ∀ c ∈ blanks, isBlank c = true) :
    trimEnd (text ++ blanks) = trimEnd text := by
  induction blanks using List.reverseRecOn with
  | nil => rw [List.append_nil]
  | append_singleton blanks c ih =>
      rw [← List.append_assoc, trimEnd_concat (h c (by simp)), ih fun d hd => h d (List.mem_append_left _ hd)]

/-- Nothing but blanks stands before the first mark. -/
def Marked (tail : List Char) : Prop := ∀ c ∈ (Scan.textRun tail).1, isBlank c = true

theorem at?_of_isBlank {c : Char} (h : isBlank c = true) (text : List Char) : Opener.at? (c :: text) = none := by
  refine Option.eq_none_iff_forall_ne_some.mpr fun opener hopener => ?_
  obtain ⟨rest, hrest⟩ := Opener.at?_eq_some_iff.mp hopener
  have hfirst : isBlank c = false := by
    cases opener <;> obtain ⟨rfl, -⟩ := List.cons.inj hrest <;> decide
  rw [h] at hfirst
  cases hfirst

theorem marked_of_opener {tail : List Char} {opener : Opener} (h : opener.spelling <+: tail.dropWhile isBlank) :
    Marked tail := by
  induction tail with
  | nil => exact List.forall_mem_nil _
  | cons c tail ih =>
      by_cases hc : isBlank c = true
      · rw [List.dropWhile_cons_of_pos hc] at h
        have hrun : Scan.textRun (c :: tail) = (c :: (Scan.textRun tail).1, (Scan.textRun tail).2) := by
          rw [Scan.textRun, at?_of_isBlank hc]
          rfl
        rw [Marked, hrun]
        exact List.forall_mem_cons.mpr ⟨hc, ih h⟩
      · rw [List.dropWhile_cons_of_neg hc] at h
        rw [Marked, Scan.textRun_of_at? (Opener.at?_eq_some_iff.mpr h)]
        exact List.forall_mem_nil _

end Text

open Text (followedBy keepsLines_followedBy Marked)

variable {tail : List Char}

namespace Cursor

def followedBy (tail : List Char) (cursor : Cursor) : Cursor := ⟨Text.followedBy tail cursor.rest, cursor.position⟩

/-- The place where the text ends. -/
def ending (cursor : Cursor) : Position := cursor.position.past cursor.rest

theorem skipWhile_followedBy {blank : Char → Bool} {cursor : Cursor} (h : (cursor.skipWhile blank).rest ≠ []) :
    (cursor.followedBy tail).skipWhile blank = (cursor.skipWhile blank).followedBy tail := by
  obtain ⟨text, position⟩ := cursor
  induction text generalizing position with
  | nil => exact absurd rfl h
  | cons c text ih =>
      by_cases hc : blank c = true
      · rw [skipWhile_cons hc] at h ⊢
        rw [← ih _ h]
        exact skipWhile_cons hc _ _
      · have hhead : ∀ rest : List Char, ∀ d ∈ (c :: rest).head?, blank d = false := by
          rintro rest d ⟨⟩
          simpa using hc
        change skipWhile blank ⟨c :: Text.followedBy tail text, position⟩ = _
        rw [skipWhile_of_head (hhead _), skipWhile_of_head (hhead _)]
        rfl

theorem passRemark_followedBy {cursor : Cursor} (h : cursor.passRemark.rest ≠ []) :
    (cursor.followedBy tail).passRemark = cursor.passRemark.followedBy tail := by
  obtain ⟨text, position⟩ := cursor
  obtain ⟨line, hline, rfl | ⟨rest, rfl⟩⟩ := exists_line text
  · rw [passRemark_last hline] at h
    exact absurd rfl h
  · have hlines : Text.followedBy tail (line ++ '\n' :: rest) = line ++ '\n' :: Text.followedBy tail rest :=
      List.append_assoc ..
    rw [followedBy, hlines, passRemark_line hline, passRemark_line hline]
    rfl

theorem skipRemarks_followedBy {cursor : Cursor} (h : cursor.skipRemarks.rest ≠ []) :
    (cursor.followedBy tail).skipRemarks = cursor.skipRemarks.followedBy tail := by
  fun_induction skipRemarks cursor with
  | case1 cursor hremark ih =>
      have hpassed : (cursor.skipWhile Text.isSpace).passRemark.rest ≠ [] := by
        have hshort := (cursor.skipWhile Text.isSpace).passRemark.skipRemarks_length_le
        have hlong := List.length_pos_iff.mpr h
        exact List.length_pos_iff.mp (by omega)
      have hskipped : (cursor.skipWhile Text.isSpace).rest ≠ [] := by
        intro hnil
        rw [hnil] at hremark
        cases hremark
      rw [← ih h, ← passRemark_followedBy hpassed, ← skipWhile_followedBy hskipped, skipRemarks, dif_pos]
      rw [skipWhile_followedBy hskipped]
      exact ((keepsLines_followedBy tail).startsRemark_change _).trans hremark
  | case2 cursor hremark =>
      rw [← skipWhile_followedBy h, skipRemarks, dif_neg]
      rw [skipWhile_followedBy h]
      exact fun hagain => hremark (((keepsLines_followedBy tail).startsRemark_change _).symm.trans hagain)

end Cursor

theorem Mode.skip_followedBy {mode : Mode} {cursor : Cursor} (h : (mode.skip cursor).rest ≠ []) :
    mode.skip (cursor.followedBy tail) = (mode.skip cursor).followedBy tail := by
  cases mode with
  | text => exact Cursor.skipWhile_followedBy h
  | questionAttributes => exact Cursor.skipWhile_followedBy h
  | optionAttributes => exact Cursor.skipWhile_followedBy h
  | embedded resume => exact Cursor.skipRemarks_followedBy h
  | logic => exact Cursor.skipRemarks_followedBy h

namespace Scan

variable {mode : Mode} {c : Char} {text : List Char} {token : TokenKind × String}

theorem exists_closed {quote : Char} (h : (string mode quote text).outcome = .ok token) :
    ∃ after, (Lexeme.stringBody quote text).2 = quote :: after := by
  by_contra hopen
  rw [(string_of_open mode (not_exists.mp hopen)).1] at h
  cases h

theorem textRun_followedBy (text : List Char) : textRun (followedBy tail text) =
    if (textRun text).2 = [] then (followedBy (textRun tail).1 text, (textRun tail).2)
    else ((textRun text).1, followedBy tail (textRun text).2) := by
  induction text with
  | nil => rfl
  | cons c text ih =>
      have hopener := (keepsLines_followedBy tail).at?_change (c :: text)
      change textRun (c :: followedBy tail text) = _
      change Opener.at? (c :: followedBy tail text) = _ at hopener
      rw [textRun, textRun, hopener]
      split_ifs with hmark hends hends
      · cases hends
      · rfl
      · rw [ih, if_pos hends]
        rfl
      · rw [ih, if_neg hends]

/-- A scan without a fault takes what it took before, but for a free text up to the end, which takes the blanks before
the first mark too and goes without them as before. -/
theorem scan_followedBy (hc : c ≠ '\n') (htail : Marked tail) (h : (mode.scan (c :: text)).outcome = .ok token) :
    mode.scan (followedBy tail (c :: text)) = (mode.scan (c :: text)).changed (followedBy tail) ∨
      (mode.scan (c :: text)).mode = .text ∧ (mode.scan (c :: text)).rest = [] ∧
        mode.scan (followedBy tail (c :: text)) =
          ⟨followedBy (textRun tail).1 (c :: text), (textRun tail).2, .text, .ok token⟩ := by
  by_cases hmode : mode = .text
  · subst hmode
    change inText _ = (inText _).changed _ ∨ (inText _).mode = _ ∧ (inText _).rest = _ ∧ inText _ = _
    change (inText _).outcome = _ at h
    cases hopener : Opener.at? (c :: text) with
    | some opener =>
        obtain ⟨rest, hrest⟩ := Opener.at?_eq_some_iff.mp hopener
        have hmark : '\n' ∉ opener.spelling := by cases opener <;> decide
        rw [← hrest, (keepsLines_followedBy tail).append_change hmark, inText_spelling, inText_spelling,
          opening_spelling, opening_spelling]
        exact .inl rfl
    | none =>
        have hrun : textRun (c :: text) = (c :: (textRun text).1, (textRun text).2) := by
          rw [textRun, hopener]
          rfl
        have hfollowed : textRun (followedBy tail (c :: text)) = _ := textRun_followedBy (c :: text)
        rw [inText_of_textRun hrun (List.cons_ne_nil _ _)] at h ⊢
        rw [hrun] at hfollowed
        dsimp only at h hfollowed ⊢
        split_ifs at hfollowed with hends
        · refine .inr ⟨rfl, hends, ?_⟩
          have htaken := textRun_append text
          rw [hends, List.append_nil] at htaken
          have hblanks : ∀ d ∈ '\n' :: (textRun tail).1, Text.isBlank d = true :=
            List.forall_mem_cons.mpr ⟨by decide, htail⟩
          rw [inText_of_textRun hfollowed (List.cons_ne_nil _ _), ← h, htaken, followedBy,
            Text.trimEnd_append_blanks _ hblanks]
        · rw [inText_of_textRun hfollowed (List.cons_ne_nil _ _)]
          exact .inl rfl
  · refine .inl (scan_change (keepsLines_followedBy tail) hmode hc fun hquote => ?_)
    rw [scan_quote hmode hquote] at h
    obtain ⟨after, hclosed⟩ := exists_closed h
    exact string_change (keepsLines_followedBy tail) hquote (fun _ _ => rfl) hclosed

end Scan

namespace Lexer

variable {lexer : Lexer} {tokens : List Token}

def followedBy (tail : List Char) (lexer : Lexer) : Lexer := { lexer with cursor := lexer.cursor.followedBy tail }

/-- A lexer at the beginning of a text, wherever that stands. -/
def beginning (text : List Char) (position : Position) : Lexer := ⟨⟨text, position⟩, .text, false⟩

/-- Blanks before a text change its place alone. -/
theorem items_beginning {blanks : List Char} (h : ∀ c ∈ blanks, Text.isBlank c = true) (text : List Char)
    (position : Position) :
    (beginning (blanks ++ text) position).items = (beginning text (position.past blanks)).items := by
  have hskip : ∀ position, Mode.text.skip ⟨blanks ++ text, position⟩ = Mode.text.skip ⟨text, position.past blanks⟩ := by
    induction blanks with
    | nil => exact fun _ => rfl
    | cons c blanks ih =>
        rw [List.forall_mem_cons] at h
        exact fun position => (Cursor.skipWhile_cons h.1 _ position).trans (ih h.2 _)
  have hnext : (beginning (blanks ++ text) position).next = (beginning text (position.past blanks)).next :=
    next_of_scan (hskip position) rfl
  have hopen : ∀ text position, (beginning text position).done = false := fun _ _ => rfl
  rw [items, items, run_of_open (hopen _ _), run_of_open (hopen _ _), hnext]

theorem kind_eq_endOfInput_iff {token : Token} {after : Lexer} (hnext : lexer.next = (.ok token, after)) :
    token.kind = .endOfInput ↔ (lexer.mode.skip lexer.cursor).rest = [] := by
  have houtcome := Scan.item_eq_ok (congrArg Prod.fst hnext)
  constructor
  · intro hkind
    rw [hkind] at houtcome
    exact (lexer.mode.stops_skip lexer.cursor).tells.atEnd _ houtcome
  · intro hnil
    rw [hnil, Scan.scan_nil] at houtcome
    exact (Prod.mk.inj (Except.ok.inj houtcome)).1.symm

/-- One step of the lexer, which stays within the first text or comes to the first mark of the second. -/
theorem next_followedBy {token : Token} {after : Lexer} (htail : Marked tail) (hnext : lexer.next = (.ok token, after))
    (hkind : token.kind ≠ .endOfInput) :
    (lexer.followedBy tail).next = (.ok token, after.followedBy tail) ∨
      after.mode = .text ∧ after.cursor.rest = [] ∧
        (lexer.followedBy tail).next = (.ok token, { after with cursor :=
          ⟨(Scan.textRun tail).2, after.cursor.position.past ('\n' :: (Scan.textRun tail).1)⟩ }) := by
  have houtcome := Scan.item_eq_ok (congrArg Prod.fst hnext)
  have hstops := lexer.mode.stops_skip lexer.cursor
  have hne := mt (kind_eq_endOfInput_iff hnext).mpr hkind
  have hskip : (lexer.followedBy tail).mode.skip (lexer.followedBy tail).cursor = _ := Mode.skip_followedBy hne
  have hfits := Scan.fits_scan lexer.mode (lexer.mode.skip lexer.cursor).rest
  obtain ⟨c, text, htext⟩ := List.exists_cons_of_ne_nil hne
  have hc : c ≠ '\n' := by
    rintro rfl
    have hblank := (Mode.stops_iff.mp hstops).1 '\n' (by rw [htext]; rfl)
    rw [lexer.mode.isBlank_lineFeed] at hblank
    cases hblank
  have hfirst : (lexer.mode.scan (c :: text)).outcome = .ok (token.kind, token.text) := htext ▸ houtcome
  have hscan := Scan.scan_followedBy hc htail hfirst
  rw [← htext] at hscan
  obtain ⟨hitem, hafter⟩ := Prod.mk.inj hnext
  rcases hscan with hscan | ⟨hmode, hrest, hscan⟩
  · refine .inl ((next_of_scan hskip hscan).trans ?_)
    rw [← hitem, ← hafter]
    rfl
  · refine .inr ⟨hafter ▸ hmode, hafter ▸ hrest, (next_of_scan hskip hscan).trans ?_⟩
    have htaken := hfits.append
    rw [hrest, List.append_nil] at htaken
    rw [Scan.item, houtcome] at hitem
    rw [← hafter, ← hitem]
    simp only [Text.followedBy, Position.past_append, htaken]
    exact congrArg (Prod.mk _) (congrArg (Lexer.mk _ · _) hmode.symm)

/-- Steps without a fault do not move the end of the text, and turn the mode as the kind of their token says. -/
theorem step_of_next {token : Token} {after : Lexer} {before : List TokenKind} (hnext : lexer.next = (.ok token, after))
    (hkind : token.kind ≠ .endOfInput) (hbracketed : lexer.mode.Bracketed before) :
    after.cursor.ending = lexer.cursor.ending ∧ after.mode.Bracketed (before ++ token.kind.delimiter?.toList) := by
  obtain ⟨gap, hskips⟩ := lexer.mode.exists_skips lexer.cursor
  have hfits := Scan.fits_scan lexer.mode (lexer.mode.skip lexer.cursor).rest
  have hstep := step_next lexer
  have hne := mt (kind_eq_endOfInput_iff hnext).mpr hkind
  obtain rfl : lexer.next.2 = after := congrArg Prod.snd hnext
  rw [hnext] at hstep
  refine ⟨?_, hbracketed.turn hstep⟩
  rw [Cursor.ending, Cursor.ending, hskips.rest, Position.past_append, ← hskips.position hne, ← hfits.append,
    Position.past_append]
  rfl

/-- A run that ends in free text goes on with what a lexer of the other text yields, from the next line on. -/
theorem items_followedBy {before : List TokenKind} (htail : Marked tail) (hopen : lexer.done = false)
    (hbracketed : lexer.mode.Bracketed before) (hclosed : unclosed (before ++ delimitersOf tokens) = [])
    (hitems : lexer.items = tokens.map .ok) :
    (lexer.followedBy tail).items =
      tokens.dropLast.map .ok ++ (beginning tail (lexer.cursor.ending.step '\n')).items := by
  induction tokens generalizing lexer before with
  | nil =>
      obtain ⟨token, after, others, -, hnil, -⟩ := exists_token hopen hitems
      cases hnil
  | cons token tokens ih =>
      obtain ⟨_, after, _, hnext, hcons, hlast, hmore⟩ := exists_token hopen hitems
      cases hcons
      have hopens : (lexer.followedBy tail).done = false := hopen
      by_cases hkind : token.kind = .endOfInput
      · obtain ⟨rfl, -⟩ := hlast hkind
        have hmode : lexer.mode = .text := by
          rw [delimitersOf_cons, hkind] at hclosed
          rw [← lexer.mode.within_enclosing, ← hbracketed.unclosed]
          exact congrArg Mode.within ((congrArg unclosed (List.append_nil before)).symm.trans hclosed)
        obtain ⟨gap, hskips⟩ := lexer.mode.exists_skips lexer.cursor
        have hrest := hskips.rest
        have hblank := hskips.passes
        rw [(kind_eq_endOfInput_iff hnext).mp hkind, List.append_nil] at hrest
        rw [hmode] at hblank
        have hblanks : ∀ c ∈ gap ++ ['\n'], Text.isBlank c = true :=
          List.forall_mem_append.mpr ⟨hblank, List.forall_mem_singleton.mpr (by decide)⟩
        have hlexer : lexer.followedBy tail = beginning (gap ++ ['\n'] ++ tail) lexer.cursor.position := by
          rw [followedBy, Cursor.followedBy, hrest, hmode, hopen, Text.followedBy, List.append_assoc]
          rfl
        rw [hlexer, items_beginning hblanks, Position.past_append, Cursor.ending, hrest]
        rfl
      · obtain ⟨hitems, -⟩ := hmore hkind
        obtain ⟨hending, hbracketed⟩ := step_of_next hnext hkind hbracketed
        have hdone : after.done = false := (congrArg (fun step => step.2.done) hnext).symm.trans hopen
        rw [delimitersOf_cons, ← List.append_assoc] at hclosed
        have hne : tokens ≠ [] := by
          rintro rfl
          rw [items, run_of_open hdone] at hitems
          cases hitems
        rw [List.dropLast_cons_of_ne_nil hne, ← hending]
        rcases next_followedBy htail hnext hkind with hagain | ⟨hmode, hrest, hagain⟩
        · rw [items, run_of_not_last hopens hagain (by simpa [Item.isLast] using hkind), List.map_cons, ← items,
            ih hdone hbracketed hclosed hitems]
          rfl
        · -- the free text was the last token but the end of input
          obtain ⟨last, _, others, hlater, rfl, hends, -⟩ := exists_token hdone hitems
          have hnil : (after.mode.skip after.cursor).rest = [] := by
            have hshort := after.mode.skip_length_le after.cursor
            rw [hrest] at hshort
            exact List.eq_nil_of_length_eq_zero (Nat.le_zero.mp hshort)
          obtain ⟨rfl, -⟩ := hends ((kind_eq_endOfInput_iff hlater).mpr hnil)
          have hmark := items_beginning htail (Scan.textRun tail).2 (after.cursor.position.step '\n')
          rw [Scan.textRun_append, ← Position.past_cons] at hmark
          rw [items, run_of_not_last hopens hagain (by simpa [Item.isLast] using hkind), List.map_cons, ← items,
            hmode, hdone, Cursor.ending, hrest]
          exact congrArg (List.cons _) hmark.symm

end Lexer

/-- A mark is the first token of a source that begins with it. -/
theorem exists_itemsOf_of_opener {source : String} {opener : Opener}
    (h : opener.spelling <+: source.toList.dropWhile Text.isBlank) :
    ∃ (position : Position) (rest : List Item),
      itemsOf source = .ok ⟨opener.kind, String.ofList opener.spelling, position⟩ :: rest := by
  obtain ⟨rest, hrest⟩ := h
  have houtcome : (Mode.text.scan (opener.spelling ++ rest)).outcome =
      .ok (opener.kind, String.ofList opener.spelling) := by
    change (Scan.inText _).outcome = _
    rw [Scan.inText_spelling, Scan.opening_spelling]
    rfl
  have hskip : ((Lexer.ofSource source).mode.skip (Lexer.ofSource source).cursor).rest = opener.spelling ++ rest :=
    hrest.symm
  obtain ⟨position, after, hnext, -⟩ := Lexer.next_of_outcome hskip houtcome
  rw [itemsOf, Lexer.items, Lexer.run_of_open rfl, hnext, List.map_cons]
  exact ⟨position, _, rfl⟩

/-- A source that ends in free text goes on with the items of the other one, further down. -/
theorem itemsOf_followedBy {first second : String} {tokens : List Token} (htokens : tokenize first = .ok tokens)
    (hclosed : unclosed (delimitersOf tokens) = []) (htail : Marked second.toList) :
    itemsOf (first ++ "\n" ++ second) = tokens.dropLast.map .ok ++
      (itemsOf second).map (Item.relocate (.down (first.toList.count '\n' + 1))) := by
  have hbracketed : Mode.text.Bracketed [] := ⟨.closed .nil, rfl⟩
  have hsource : Lexer.ofSource (first ++ "\n" ++ second) = (Lexer.ofSource first).followedBy second.toList := by
    rw [Lexer.ofSource, String.toList_append, String.toList_append, List.append_assoc]
    rfl
  have hplace : (Position.origin.past first.toList).step '\n' = .down (first.toList.count '\n' + 1) .origin := by
    rw [Position.past_origin, Position.endOf, Position.step, if_pos rfl, Position.down, Position.origin,
      Nat.add_assoc]
  rw [itemsOf, hsource, Lexer.items_followedBy htail rfl hbracketed hclosed (tokenize_eq_ok_iff.mp htokens), itemsOf,
    ← Lexer.items_relocate (Position.steady_down _)]
  exact congrArg (fun place => _ ++ (Lexer.beginning second.toList place).items) hplace

end Questionnaire
