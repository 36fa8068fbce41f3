import Questionnaire.Proofs.Token.ByteLexemes
import Questionnaire.Proofs.Token.CarriageReturns

/-! The whole lexer byte by byte. In each mode the first byte of a lexeme, and at most the one behind it, tells what
its characters tell, for the marks and all that begins a token are characters of one byte. So a step from where a
character begins is the step of the lexer, and ends where a character begins, a step that fails no less than others.
Main statement: from the start of a source on, no move that the source does not allow is ever come to. -/

namespace Questionnaire

namespace Lexer

variable {lexer : Lexer} {count : Nat} {step : Item × Lexer}

theorem suffix_of_mem_steps (h : step ∈ lexer.steps count) : step.2.cursor.rest <:+ lexer.cursor.rest := by
  induction count generalizing lexer with
  | zero => cases h
  | succ count ih =>
      rcases List.mem_cons.mp h with rfl | hlater
      · exact lexer.suffix_next
      · exact (ih hlater).trans lexer.suffix_next

/-- The flag of the stream is none of a step's business. -/
theorem done_of_mem_steps (h : step ∈ lexer.steps count) : step.2.done = lexer.done := by
  induction count generalizing lexer with
  | zero => cases h
  | succ count ih =>
      rcases List.mem_cons.mp h with rfl | hlater
      · rfl
      · have hdone : step.2.done = lexer.next.2.done := ih hlater
        exact hdone

end Lexer

theorem Opener.narrow_spelling (opener : Opener) : ∀ c ∈ opener.spelling, c.toNat < 128 := by
  cases opener <;> simp [Opener.spelling]

theorem Opener.narrow_isCandidate : Text.Narrow Opener.isCandidate :=
  ((Text.Narrow.of_eq (by decide)).or (.of_eq (by decide))).or (.of_eq (by decide))

/-- The marks are looked for one after the other. -/
theorem Opener.find?_eq_at? (text : List Char) :
    [Opener.question, .option, .embedded, .logic].find? (fun opener => opener.spelling.isPrefixOf text) =
      Opener.at? text := by
  cases hopener : Opener.at? text with
  | none =>
      rw [List.find?_eq_none]
      intro opener _ hfront
      rw [Opener.at?_eq_some_iff.mpr (List.isPrefixOf_iff_prefix.mp hfront)] at hopener
      cases hopener
  | some opener =>
      have hfront : opener.spelling.isPrefixOf text = true :=
        List.isPrefixOf_iff_prefix.mpr (Opener.at?_eq_some_iff.mp hopener)
      have hlisted : opener ∈ [Opener.question, .option, .embedded, .logic] := by cases opener <;> simp
      cases hfound : List.find? (fun opener : Opener => opener.spelling.isPrefixOf text) _ with
      | none => exact absurd hfront (List.find?_eq_none.mp hfound opener hlisted)
      | some other =>
          have hother := List.find?_some hfound
          rw [← hopener, Opener.at?_eq_some_iff.mpr (List.isPrefixOf_iff_prefix.mp hother)]

theorem Position.past_of_line {line : List Char} (h : '\n' ∉ line) (position : Position) :
    position.past line = ⟨position.line, position.column + line.length⟩ := by
  induction line generalizing position with
  | nil => rfl
  | cons c line ih =>
      rw [List.mem_cons, not_or] at h
      rw [past_cons, ih h.2, step, if_neg (Ne.symm h.1), List.length_cons, Nat.add_assoc, Nat.add_comm 1]

namespace ByteReader

variable {source : String} {search : ByteSearch} {text rest taken : List Char} {c : Char} {position : Position}
  {mode : Mode}

theorem front_beq {d : Char} (hd : d.toNat < 128) (hzero : d ≠ '\x00') (text : List Char) :
    (Text.front text == d) = (text.head? == some d) := by
  cases text with
  | nil => exact beq_eq_false_iff_ne.mpr hzero.symm
  | cons c text => exact (Text.Narrow.of_eq hd).front_cons c text

/-- The byte behind a candidate decides as the character behind it. -/
theorem confirms_eq (h : Opener.isCandidate c = true) (text : List Char) :
    confirms c.toUInt8 ((Text.bytesOf text).getD 0 0) = Opener.confirms c text.head? := by
  have hfront {d : Char} (hd : d.toNat < 128) (hzero : d ≠ '\x00') := front_beq hd hzero text
  rw [Text.front] at hfront
  simp only [Opener.isCandidate, Bool.or_eq_true, beq_iff_eq] at h
  rcases h with (rfl | rfl) | rfl
  · show (Char.ofUInt8 _ == '<' || Char.ofUInt8 _ == '%') = (text.head? == some '<' || text.head? == some '%')
    rw [hfront (by decide) (by decide), hfront (by decide) (by decide)]
  · rfl
  · exact hfront (by decide) (by decide)

/-- A candidate that the search has found among the bytes. -/
structure Candidate (source : String) (text : List Char) (c : Char) (rest : List Char) : Prop where
  suffix : c :: rest <:+ text
  isCandidate : Opener.isCandidate c = true
  place_eq : place source (c :: rest) =
    place source text + String.utf8Len (text.takeWhile fun c => !Opener.isCandidate c)
  byte : (bytes source)[place source (c :: rest)]? = some c.toUInt8
  next : (bytes source).getD (place source (c :: rest) + 1) 0 = (Text.bytesOf rest).getD 0 0
  place_next : place source (c :: rest) + 1 = place source rest

theorem candidate_of_dropWhile (hfound : (text.dropWhile fun c => !Opener.isCandidate c) = c :: rest)
    (h : text <:+ source.toList) : Candidate source text c rest := by
  have htext := List.takeWhile_append_dropWhile (p := fun c => !Opener.isCandidate c) (l := text)
  rw [hfound] at htext
  have hsuffix : c :: rest <:+ text := ⟨_, htext⟩
  have hcandidate : Opener.isCandidate c = true := by
    have hhead := List.head?_dropWhile_not (fun c => !Opener.isCandidate c) text
    rw [hfound] at hhead
    simpa using hhead
  have hnarrow := Opener.narrow_isCandidate c hcandidate
  refine ⟨hsuffix, hcandidate, ?_, ?_, ?_, ?_⟩
  · have hplace := place_append (by rw [htext]; exact h)
    rwa [htext] at hplace
  · have hbyte := getElem?_bytes (hsuffix.trans h) 0
    rwa [Text.bytesOf_cons_of_narrow hnarrow] at hbyte
  · rw [getD_bytes (hsuffix.trans h), Text.bytesOf_cons_of_narrow hnarrow]
    rfl
  · rw [place_cons (hsuffix.trans h), Text.utf8Size_of_narrow hnarrow]

section Lawful

variable (lawful : search.Lawful)
include lawful

/-- The next candidate is found where the characters have it. -/
theorem three_bytesOf (text : List Char) :
    search.three '<'.toUInt8 '['.toUInt8 '$'.toUInt8 (Text.bytesOf text) =
      (text.dropWhile fun c => !Opener.isCandidate c).head?.map fun _ =>
        String.utf8Len (text.takeWhile fun c => !Opener.isCandidate c) := by
  rw [lawful.three_eq, ← Opener.narrow_isCandidate.findIdx?_bytesOf]
  congr 1
  funext byte
  rw [Text.beq_toUInt8 (by decide), Text.beq_toUInt8 (by decide), Text.beq_toUInt8 (by decide)]
  rfl

theorem one_bytesOf (text : List Char) : search.one '\n'.toUInt8 (Text.bytesOf text) =
    (Cursor.lineEnd text).head?.map fun _ => String.utf8Len (text.takeWhile fun c => c != '\n') := by
  have hline := (Text.Narrow.of_eq (d := '\n') (by decide)).findIdx?_bytesOf text
  rw [lawful.one_eq]
  refine Eq.trans ?_ hline
  congr 1
  funext byte
  exact Text.beq_toUInt8 (by decide) byte

/-- From candidate to candidate the bytes lead to the mark that the characters lead to. -/
theorem markFrom_place (h : text <:+ source.toList) (reader : ByteReader) :
    markFrom source search (place source text) reader =
      .ok (place source (Scan.markSearch text).2, reader) := by
  -- both searches go from candidate to candidate, and the candidates are the same
  fun_induction Scan.markSearch text with
  | case1 text hend =>
      rw [markFrom, bind_of_ok (bytesFrom_standing h reader), three_bytesOf lawful, hend]
      rfl
  | case2 text candidate rest hfound passed hconfirms =>
      have hcandidate := candidate_of_dropWhile hfound h
      rw [markFrom, bind_of_ok (bytesFrom_standing h reader), three_bytesOf lawful, hfound, List.head?_cons,
        Option.map_some]
      dsimp only
      rw [← hcandidate.place_eq, bind_of_ok (byteAt_of_getElem? hcandidate.byte reader), hcandidate.next,
        confirms_eq hcandidate.isCandidate, if_pos hconfirms]
      rfl
  | case3 text candidate rest hfound passed hconfirms run after hsearch ih =>
      have hcandidate := candidate_of_dropWhile hfound h
      have hrest : rest <:+ source.toList := (List.suffix_cons _ _).trans (hcandidate.suffix.trans h)
      have honward : (Move.goRound (place source text) (place source (candidate :: rest) + 1)).Allowed source := by
        refine ⟨?_, hcandidate.place_next ▸ place_le _ _⟩
        rw [hcandidate.place_eq]
        omega
      rw [hsearch] at ih
      rw [markFrom, bind_of_ok (bytesFrom_standing h reader), three_bytesOf lawful, hfound, List.head?_cons,
        Option.map_some]
      dsimp only
      rw [← hcandidate.place_eq, bind_of_ok (byteAt_of_getElem? hcandidate.byte reader), hcandidate.next,
        confirms_eq hcandidate.isCandidate, if_neg hconfirms, dif_pos honward, hcandidate.place_next, ih hrest]

theorem textRun_standing (hopener : Opener.at? (c :: rest) = none) (h : c :: rest <:+ source.toList) :
    textRun source search position (standing source ⟨c :: rest, position⟩ .text) =
      answer source ⟨c :: rest, position⟩ (Scan.inText (c :: rest)) := by
  have happend := Scan.textRun_append (c :: rest)
  have hne : (Scan.textRun (c :: rest)).1 ≠ [] := by
    rw [Scan.textRun_cons_of_at? hopener]
    exact List.cons_ne_nil _ _
  have hlength : place source (Scan.textRun (c :: rest)).2 - place source (c :: rest) =
      String.utf8Len (Scan.textRun (c :: rest)).1 := by
    have hplace := place_append (by rw [happend]; exact h)
    rw [happend] at hplace
    omega
  have hadvance : advanceTo source (place source (Scan.textRun (c :: rest)).2)
      (standing source ⟨c :: rest, position⟩ .text) =
        .ok ((), standing source ⟨(Scan.textRun (c :: rest)).2, position.past (Scan.textRun (c :: rest)).1⟩ .text) := by
    rw [advanceTo, get_bind, standing_cursor, hlength]
    exact bump_standing happend h
  rw [textRun, get_bind, standing_cursor, bind_of_ok (markFrom_place lawful h _), Scan.markSearch_eq_textRun,
    bind_of_ok hadvance, bind_of_ok (textBetween_standing happend h _), String.toList_ofList,
    Scan.inText_of_textRun rfl hne]
  rfl

/-- A remark is passed as far and counted as far as the characters have it. -/
theorem passRemark_standing (h : rest <:+ source.toList) :
    passRemark source search (standing source ⟨rest, position⟩ mode) =
      .ok ((), standing source (Cursor.passRemark ⟨rest, position⟩) mode) := by
  have happend : (rest.takeWhile fun c => c != '\n') ++ Cursor.lineEnd rest = rest := List.takeWhile_append_dropWhile
  have hline : '\n' ∉ rest.takeWhile fun c => c != '\n' := fun hmem => by simpa using List.mem_takeWhile_imp hmem
  rw [passRemark, get_bind, standing_cursor, bind_of_ok (bytesFrom_standing h _), one_bytesOf lawful]
  cases hend : Cursor.lineEnd rest with
  | nil =>
      rw [hend, List.append_nil] at happend
      have hpass := Cursor.passRemark_last hline position
      rw [happend] at hpass
      rw [hpass]
      exact moveTo_of_le le_rfl _
  | cons c after =>
      have hfeed : c = '\n' := by
        have hhead := List.head?_dropWhile_not (fun c => c != '\n') rest
        rw [← Cursor.lineEnd, hend] at hhead
        simpa using hhead
      subst hfeed
      rw [hend] at happend
      have hplace := place_append (by rw [happend]; exact h)
      rw [happend] at hplace
      have hpass := Cursor.passRemark_line hline after position
      rw [happend, Position.past_of_line hline] at hpass
      rw [hpass, List.head?_cons, Option.map_some]
      dsimp only
      rw [← hplace, bind_of_ok (textBetween_standing happend h _), modify_bind, String.toList_ofList]
      exact moveTo_of_le (place_le _ _) _

end Lawful

theorem findM?_startsWith (openers : List Opener) (h : rest <:+ source.toList) :
    (openers.findM? fun opener => startsWith source opener.spelling) (standing source ⟨rest, position⟩ mode) =
      .ok (openers.find? fun opener => opener.spelling.isPrefixOf rest, standing source ⟨rest, position⟩ mode) := by
  induction openers with
  | nil => rfl
  | cons opener openers ih =>
      rw [List.findM?, bind_of_ok (startsWith_standing opener.narrow_spelling h), List.find?_cons]
      cases opener.spelling.isPrefixOf rest with
      | true => rfl
      | false => exact ih

theorem suffix_skipWhile (test : Char → Bool) {cursor : Cursor} (h : cursor.rest <:+ source.toList) :
    (cursor.skipWhile test).rest <:+ source.toList := (List.dropWhile_suffix test).trans h

theorem passSpaces_standing {cursor : Cursor} (h : cursor.rest <:+ source.toList) :
    passWhile source Text.isSpace (standing source cursor mode) =
      .ok ((), standing source (cursor.skipWhile Text.isSpace) mode) :=
  passWhile_standing Lexeme.narrow_isSpace rfl h

theorem suffix_passRemark (cursor : Cursor) : cursor.passRemark.rest <:+ cursor.rest := by
  unfold Cursor.passRemark
  dsimp only
  split_ifs
  · exact List.nil_suffix
  · exact List.dropWhile_suffix _

theorem inText_standing (lawful : search.Lawful) {cursor : Cursor} (h : cursor.rest <:+ source.toList) :
    inText source search (standing source cursor .text) =
      answer source (cursor.skipWhile Text.isBlank) (Scan.inText (cursor.skipWhile Text.isBlank).rest) := by
  have hstart := suffix_skipWhile Text.isBlank h
  rw [inText, bind_of_ok (passBlanks_standing h), get_bind, standing_position]
  generalize cursor.skipWhile Text.isBlank = start at hstart
  obtain ⟨text, position⟩ := start
  rw [bind_of_ok (atEnd_standing hstart)]
  cases text with
  | nil => rfl
  | cons c text =>
      rw [List.isEmpty_cons, if_neg Bool.false_ne_true, bind_of_ok (findM?_startsWith _ hstart), Opener.find?_eq_at?]
      cases hopener : Opener.at? (c :: text) with
      | none => exact textRun_standing lawful hopener hstart
      | some opener =>
          obtain ⟨after, hafter⟩ := Opener.at?_eq_some_iff.mp hopener
          dsimp only
          rw [← hafter] at hstart ⊢
          rw [opening_standing opener hstart, Scan.inText_spelling, Scan.opening_spelling]

theorem closer_facts {closer : Closer} (h : mode.closer? = some closer) :
    (∀ c ∈ closer.spelling, c.toNat < 128) ∧ String.utf8Len closer.spelling = closer.spelling.length := by
  cases mode <;> cases h <;> exact ⟨by simp, rfl⟩

theorem closing?_eq_none {closer : Closer} (hcloser : mode.closer? = some closer)
    (h : closer.spelling.isPrefixOf text = false) : Scan.closing? mode text = none := by
  simp only [Scan.closing?, hcloser, h, Bool.false_eq_true, if_false]

theorem not_embedded_of_isPrefixOf (h : Opener.embedded.spelling.isPrefixOf text = false) :
    Opener.at? text ≠ some .embedded := by
  intro hopener
  rw [List.isPrefixOf_iff_prefix.mpr (Opener.at?_eq_some_iff.mp hopener)] at h
  cases h

section Attributes

variable {closer : Closer}

theorem markedName_standing (h : '@' :: rest <:+ source.toList) :
    markedName source position (standing source ⟨'@' :: rest, position⟩ mode) =
      answer source ⟨'@' :: rest, position⟩ (Scan.markedName mode '@' rest) := by
  have hrest := (List.suffix_cons _ _).trans h
  rw [markedName, bind_of_ok (advance_standing (by decide) h), bind_of_ok (peek_front hrest)]
  cases rest with
  | nil => rfl
  | cons c rest =>
      rw [Lexeme.narrow_isWordStart.front_cons, Scan.markedName]
      cases hstart : Lexeme.isWordStart c with
      | true =>
          rw [if_pos rfl, if_pos rfl, bind_of_ok (readWord_standing hrest)]
          rfl
      | false =>
          rw [if_neg Bool.false_ne_true, if_neg Bool.false_ne_true]
          rfl

theorem attributeLexeme_standing (h : c :: rest <:+ source.toList) :
    attributeLexeme source position (standing source ⟨c :: rest, position⟩ mode) =
      answer source ⟨c :: rest, position⟩
        (if Lexeme.isQuote c then Scan.string mode c rest
        else if c = '=' then Scan.lexeme mode .punctuation ([c], rest)
        else if c = '@' then Scan.markedName mode c rest
        else if Lexeme.isWordStart c then Scan.lexeme mode .identifier (Lexeme.word (c :: rest))
        else Scan.unexpected mode c rest) := by
  rw [attributeLexeme, bind_of_ok (peek_front h)]
  -- a test of the first byte is one of the character, however many bytes that has
  simp (disch := decide) only [Lexeme.narrow_isQuote.front_cons, Lexeme.narrow_isWordStart.front_cons,
    Text.front_eq_iff]
  split_ifs with hquote hequals hmark hword
  · exact string_standing hquote h
  · subst hequals
    rw [bind_of_ok (advance_standing (by decide) h)]
    rfl
  · subst hmark
    exact markedName_standing h
  · rw [bind_of_ok (readWord_standing h)]
    rfl
  · exact unexpected_standing h

theorem inAttributes_standing (hcloser : mode.closer? = some closer) {cursor : Cursor}
    (h : cursor.rest <:+ source.toList) :
    inAttributes source closer (standing source cursor mode) =
      answer source (cursor.skipWhile Text.isSpace) (Scan.inAttributes mode (cursor.skipWhile Text.isSpace).rest) := by
  have hstart := suffix_skipWhile Text.isSpace h
  obtain ⟨hnarrow, hlength⟩ := closer_facts hcloser
  rw [inAttributes, bind_of_ok (passSpaces_standing h), get_bind, standing_position]
  generalize cursor.skipWhile Text.isSpace = start at hstart
  obtain ⟨text, position⟩ := start
  rw [bind_of_ok (atEnd_standing hstart)]
  cases text with
  | nil => cases mode <;> cases hcloser <;> rfl
  | cons c text =>
      rw [List.isEmpty_cons, if_neg Bool.false_ne_true, bind_of_ok (startsWith_standing hnarrow hstart)]
      cases hclose : closer.spelling.isPrefixOf (c :: text) with
      | true =>
          obtain ⟨after, hafter⟩ := List.isPrefixOf_iff_prefix.mp hclose
          rw [if_pos rfl, ← hafter, Scan.inAttributes_of_closing? (Scan.closing?_spelling hcloser after)]
          exact closing_standing closer hlength (hafter ▸ hstart)
      | false =>
          rw [if_neg Bool.false_ne_true, Scan.inAttributes_cons (closing?_eq_none hcloser hclose),
            bind_of_ok (startsWith_standing Opener.embedded.narrow_spelling hstart)]
          cases hembedded : Opener.embedded.spelling.isPrefixOf (c :: text) with
          | true =>
              obtain ⟨after, hafter⟩ := List.isPrefixOf_iff_prefix.mp hembedded
              rw [if_pos rfl, ← hafter, if_pos (Opener.at?_spelling _ _), Scan.opening_spelling]
              exact opening_standing .embedded (hafter ▸ hstart)
          | false =>
              rw [if_neg Bool.false_ne_true, if_neg (not_embedded_of_isPrefixOf hembedded)]
              exact attributeLexeme_standing hstart

end Attributes

section Logic

theorem closes_standing (resume : Option Resume) (h : rest <:+ source.toList) :
    closes source resume (standing source ⟨rest, position⟩ mode) =
      .ok ((logicCloser resume).spelling.isPrefixOf rest, standing source ⟨rest, position⟩ mode) := by
  cases resume with
  | none =>
      have hnarrow : ∀ c ∈ ['%', '>'], c.toNat < 128 := by simp
      exact startsWith_standing hnarrow h
  | some resume =>
      have hfront := front_beq (d := '\x7d') (by decide) (by decide) rest
      rw [closes, bind_of_ok (peek_front h), hfront]
      cases rest with
      | nil => rfl
      | cons c rest =>
          show Except.ok (some c == some '\x7d', _) = Except.ok ('\x7d' == c && true, _)
          rw [Bool.and_true, Option.some_beq_some, BEq.comm]

/-- The answer as that of the last round of a loop. -/
def lastRound (source : String) (start : Cursor) (scan : Scan) : Except Move ((Unit ⊕ Item) × ByteReader) :=
  .ok (.inr (scan.item start.position), standing source ⟨scan.rest, start.position.past scan.taken⟩ scan.mode)

theorem inr_of_answer {action : Action Item} {reader : ByteReader} {start : Cursor} {scan : Scan}
    (h : action reader = answer source start scan) :
    (Sum.inr <$> action : Action (Unit ⊕ Item)) reader = lastRound source start scan := map_of_ok h

theorem startsNumber_point (rest : List Char) :
    Lexeme.startsNumber ('.' :: rest) = (Text.front rest).isDigit := by
  cases rest with
  | nil => rfl
  | cons c rest => rw [Lexeme.startsNumber_cons_cons, if_pos rfl, Lexeme.narrow_isDigit.front_cons]

theorem startsNumber_other (hpoint : c ≠ '.') (rest : List Char) : Lexeme.startsNumber (c :: rest) = c.isDigit := by
  cases rest with
  | nil => simp [Lexeme.startsNumber]
  | cons d rest => rw [Lexeme.startsNumber_cons_cons, if_neg hpoint]

theorem peek_behind (hc : c.toNat < 128) (h : c :: rest <:+ source.toList) :
    peek source 1 (standing source ⟨c :: rest, position⟩ mode) =
      .ok (Text.front rest, standing source ⟨c :: rest, position⟩ mode) := by
  rw [peek_standing h, Text.bytesOf_cons_of_narrow hc]
  rfl

theorem startsRemark_cons (c : Char) (rest : List Char) :
    Lexeme.startsRemark (c :: rest) = true ↔ c = '/' ∧ Text.front rest = '/' := by
  rw [Lexeme.startsRemark_iff, List.cons_prefix_cons]
  refine and_congr eq_comm ?_
  cases rest with
  | nil => simp [Text.front_nil]
  | cons d rest =>
      rw [Text.front_eq_iff (by decide), List.cons_prefix_cons, and_iff_left List.nil_prefix]
      exact eq_comm

/-- What begins a text of logic is told by the byte that it begins with and the one behind it. -/
theorem logicLexeme_token (hremark : Lexeme.startsRemark (c :: rest) = false) (h : c :: rest <:+ source.toList) :
    logicLexeme source search position (standing source ⟨c :: rest, position⟩ mode) =
      lastRound source ⟨c :: rest, position⟩
        (if Lexeme.isQuote c then Scan.string mode c rest
        else if Lexeme.startsNumber (c :: rest) then Scan.number mode (c :: rest)
        else if Lexeme.isPunctuation c then Scan.lexeme mode .punctuation ([c], rest)
        else if Lexeme.isOperatorStart c then Scan.lexeme mode .operator (Lexeme.operator (c :: rest))
        else if Lexeme.isWordStart c then Scan.word mode (c :: rest)
        else Scan.unexpected mode c rest) := by
  have hslashes : ¬(c = '/' ∧ Char.ofUInt8 ((Text.bytesOf (c :: rest)).getD 1 0) = '/') := by
    rintro ⟨rfl, hslash⟩
    rw [Text.bytesOf_cons_of_narrow (by decide)] at hslash
    exact Bool.eq_false_iff.mp hremark ((startsRemark_cons _ rest).mpr ⟨rfl, hslash⟩)
  rw [logicLexeme, bind_of_ok (peek_front h)]
  -- as in attributes, tests of the first byte are tests of the character
  simp (disch := decide) only [Lexeme.narrow_isQuote.front_cons, Lexeme.narrow_isDigit.front_cons,
    Lexeme.narrow_isPunctuation.front_cons, Lexeme.narrow_isOperatorStart.front_cons,
    Lexeme.narrow_isWordStart.front_cons, Text.front_eq_iff]
  by_cases hquote : Lexeme.isQuote c = true
  · rw [if_pos hquote, if_pos hquote]
    exact inr_of_answer (string_standing hquote h)
  rw [if_neg hquote, if_neg hquote]
  by_cases hpoint : c = '.'
  · subst hpoint
    rw [if_pos rfl, bind_of_ok (peek_behind (by decide) h), startsNumber_point]
    by_cases hdigit : (Text.front rest).isDigit = true
    · rw [if_pos hdigit, if_pos hdigit]
      exact inr_of_answer (number_standing h)
    · rw [if_neg hdigit, if_neg hdigit, if_pos (by decide), bind_of_ok (advance_standing (by decide) h)]
      rfl
  rw [if_neg hpoint, bind_of_ok (peek_standing h 1), if_neg hslashes, startsNumber_other hpoint]
  split_ifs with hdigit hpunctuation hoperator hword
  · exact inr_of_answer (number_standing h)
  · rw [get_bind, bind_of_ok (advance_standing (Lexeme.narrow_isPunctuation c hpunctuation) h), get_bind,
      standing_cursor, standing_cursor, bind_of_ok (textBetween_standing List.singleton_append h _)]
    rfl
  · exact inr_of_answer (operator_standing hoperator h)
  · exact inr_of_answer (word_standing h)
  · exact inr_of_answer (unexpected_standing h)

theorem logicLexeme_remark (lawful : search.Lawful) (hremark : Lexeme.startsRemark rest = true)
    (h : rest <:+ source.toList) :
    logicLexeme source search position (standing source ⟨rest, position⟩ mode) =
      .ok (.inl (), standing source (Cursor.passRemark ⟨rest, position⟩) mode) := by
  cases rest with
  | nil => cases hremark
  | cons c rest =>
      obtain ⟨rfl, hslash⟩ := (startsRemark_cons c rest).mp hremark
      rw [logicLexeme, bind_of_ok (peek_front h), Text.front_of_narrow (by decide), if_neg (by decide),
        if_neg (by decide), bind_of_ok (peek_behind (by decide) h), if_pos ⟨rfl, hslash⟩,
        bind_of_ok (passRemark_standing lawful h)]
      rfl

def logicMode : Option Resume → Mode
  | some resume => .embedded resume
  | none => .logic

theorem closer?_logicMode (resume : Option Resume) : (logicMode resume).closer? = some (logicCloser resume) := by
  cases resume <;> rfl

section Rounds

variable {resume : Option Resume} {cursor : Cursor}

theorem logicRound_remark (lawful : search.Lawful)
    (hremark : Lexeme.startsRemark (cursor.skipWhile Text.isSpace).rest = true) (h : cursor.rest <:+ source.toList) :
    logicRound source search resume (standing source cursor mode) =
      .ok (.inl (), standing source (cursor.skipWhile Text.isSpace).passRemark mode) := by
  have hstart := suffix_skipWhile Text.isSpace h
  rw [logicRound, bind_of_ok (passSpaces_standing h), get_bind, standing_position]
  generalize cursor.skipWhile Text.isSpace = start at hstart hremark
  obtain ⟨text, position⟩ := start
  obtain ⟨rest, rfl⟩ := Lexeme.startsRemark_iff.mp hremark
  have hclose : (logicCloser resume).spelling.isPrefixOf ('/' :: '/' :: rest) = false := by cases resume <;> rfl
  rw [bind_of_ok (atEnd_standing hstart), if_neg (by simp), bind_of_ok (closes_standing resume hstart)]
  simp only [List.cons_append, List.nil_append] at hstart hremark ⊢
  rw [hclose, if_neg Bool.false_ne_true, bind_of_ok (startsWith_standing Opener.embedded.narrow_spelling hstart),
    if_neg (by simp [Opener.spelling])]
  exact logicLexeme_remark lawful hremark hstart

theorem logicRound_token (hremark : Lexeme.startsRemark (cursor.skipWhile Text.isSpace).rest = false)
    (h : cursor.rest <:+ source.toList) :
    logicRound source search resume (standing source cursor (logicMode resume)) =
      lastRound source (cursor.skipWhile Text.isSpace)
        (Scan.inLogic (logicMode resume) (cursor.skipWhile Text.isSpace).rest) := by
  have hstart := suffix_skipWhile Text.isSpace h
  have hcloser := closer?_logicMode resume
  obtain ⟨-, hlength⟩ := closer_facts hcloser
  rw [logicRound, bind_of_ok (passSpaces_standing h), get_bind, standing_position]
  generalize cursor.skipWhile Text.isSpace = start at hstart hremark
  obtain ⟨text, position⟩ := start
  rw [bind_of_ok (atEnd_standing hstart)]
  cases text with
  | nil => cases resume <;> rfl
  | cons c text =>
      rw [List.isEmpty_cons, if_neg Bool.false_ne_true, bind_of_ok (closes_standing resume hstart)]
      cases hclose : (logicCloser resume).spelling.isPrefixOf (c :: text) with
      | true =>
          obtain ⟨after, hafter⟩ := List.isPrefixOf_iff_prefix.mp hclose
          rw [if_pos rfl, ← hafter, Scan.inLogic_of_closing? (Scan.closing?_spelling hcloser after)]
          exact inr_of_answer (closing_standing _ hlength (hafter ▸ hstart))
      | false =>
          rw [if_neg Bool.false_ne_true, Scan.inLogic_cons (closing?_eq_none hcloser hclose),
            bind_of_ok (startsWith_standing Opener.embedded.narrow_spelling hstart)]
          cases hembedded : Opener.embedded.spelling.isPrefixOf (c :: text) with
          | true =>
              rw [if_pos rfl, if_pos (Opener.at?_eq_some_iff.mpr (List.isPrefixOf_iff_prefix.mp hembedded))]
              cases resume <;> rfl
          | false =>
              rw [if_neg Bool.false_ne_true, if_neg (not_embedded_of_isPrefixOf hembedded)]
              exact logicLexeme_token hremark hstart

/-- The loop passes remarks as long as there are some. -/
theorem inLogic_standing (resume : Option Resume) (lawful : search.Lawful) (h : cursor.rest <:+ source.toList) :
    inLogic source search resume (standing source cursor (logicMode resume)) =
      answer source cursor.skipRemarks (Scan.inLogic (logicMode resume) cursor.skipRemarks.rest) := by
  unfold inLogic
  fun_induction Cursor.skipRemarks cursor with
  | case1 cursor hremark ih =>
      have hpassed := (suffix_passRemark _).trans (suffix_skipWhile Text.isSpace h)
      obtain ⟨taken, htaken⟩ := (suffix_passRemark (cursor.skipWhile Text.isSpace)).trans (List.dropWhile_suffix _)
      -- a remark has at least its two slashes, so that the round leads on
      have hne : taken ≠ [] := by
        rintro rfl
        have hlt := Cursor.passRemark_length_lt hremark
        have hle := cursor.skipWhile_length_le Text.isSpace
        rw [List.nil_append] at htaken
        rw [htaken] at hlt
        omega
      exact (rounds_standing htaken hne h (logicRound_remark lawful hremark h)).trans (ih hpassed)
  | case2 cursor hremark =>
      exact rounds_of_inr (logicRound_token (Bool.eq_false_iff.mpr hremark) h)

end Rounds

end Logic

/-- One step of the reader is one step of the lexer. -/
theorem next_standing (lawful : search.Lawful) (lexer : Lexer) (h : lexer.cursor.rest <:+ source.toList) :
    next source search (standing source lexer.cursor lexer.mode) =
      .ok (lexer.next.1, standing source lexer.next.2.cursor lexer.next.2.mode) := by
  obtain ⟨cursor, mode, done⟩ := lexer
  rw [next, get_bind, standing_mode]
  cases mode with
  | text => exact inText_standing lawful h
  | questionAttributes => exact inAttributes_standing rfl h
  | optionAttributes => exact inAttributes_standing rfl h
  | embedded resume => exact inLogic_standing (some resume) lawful h
  | logic => exact inLogic_standing none lawful h

theorem steps_standing (lawful : search.Lawful) (count : Nat) (lexer : Lexer)
    (h : lexer.cursor.rest <:+ source.toList) :
    ∃ last, steps source search count (standing source lexer.cursor lexer.mode) =
      .ok ((lexer.steps count).map fun step => (step.1, standing source step.2.cursor step.2.mode), last) := by
  induction count generalizing lexer with
  | zero => exact ⟨_, rfl⟩
  | succ count ih =>
      obtain ⟨last, hsteps⟩ := ih lexer.next.2 (lexer.suffix_next.trans h)
      refine ⟨last, ?_⟩
      rw [steps, bind_of_ok (next_standing lawful lexer h), get_bind, bind_of_ok hsteps]
      rfl

/-- The lexer that has come as far as the reader. -/
def lexer (source : String) (reader : ByteReader) : Lexer :=
  ⟨⟨(String.Pos.Raw.extract source ⟨reader.cursor⟩ source.rawEndPos).toList, reader.position⟩, reader.mode, false⟩

theorem lexer_standing {cursor : Cursor} (h : cursor.rest <:+ source.toList) :
    (standing source cursor mode).lexer source = ⟨cursor, mode, false⟩ := by
  have hextract : String.Pos.Raw.extract source ⟨place source (cursor.rest ++ [])⟩ ⟨place source []⟩ = _ :=
    extract_place (by rwa [List.append_nil])
  rw [List.append_nil] at hextract
  show Lexer.mk ⟨(String.Pos.Raw.extract source ⟨place source cursor.rest⟩ ⟨place source []⟩).toList, _⟩ mode false = _
  rw [hextract, String.toList_ofList]
  rfl

/-- However often the next token is asked for, past faults and past the end of input too, the reader comes to no move
that the source does not allow: it reads no byte outside the source, cuts out no text with an end outside the source or
within a character, and is stuck in no loop. After each step its cursor stands between two characters, and reader and
lexer have answered alike and come equally far. -/
theorem steps_within_source (lawful : search.Lawful) (source : String) (count : Nat) :
    ∃ run last, steps source search count ofSource = .ok (run, last) ∧
      (∀ step ∈ run, step.2.cursor ≤ source.utf8ByteSize ∧ OnBoundary source step.2.cursor) ∧
      run.map (fun step => (step.1, step.2.lexer source)) = (Lexer.ofSource source).steps count := by
  have hstart : standing source ⟨source.toList, .origin⟩ .text = ofSource := by
    rw [standing, place_toList]
    rfl
  obtain ⟨last, hsteps⟩ := steps_standing lawful count (Lexer.ofSource source) (List.suffix_refl source.toList)
  refine ⟨_, last, hstart ▸ hsteps, fun step hstep => ?_, ?_⟩
  · obtain ⟨_, hmem, rfl⟩ := List.mem_map.mp hstep
    exact ⟨place_le _ _, onBoundary_place (Lexer.suffix_of_mem_steps hmem)⟩
  · have hlexer : ∀ step ∈ (Lexer.ofSource source).steps count,
        (step.1, (standing source step.2.cursor step.2.mode).lexer source) = step := by
      intro step hstep
      obtain ⟨item, cursor, mode, done⟩ := step
      obtain rfl : done = false := Lexer.done_of_mem_steps hstep
      rw [lexer_standing (Lexer.suffix_of_mem_steps hstep)]
    rw [List.map_map]
    exact (List.map_congr_left hlexer).trans (List.map_id _)

/-- A string that its line does not close leaves the cursor behind its last character, here one of two bytes, and the
next step begins there. -/
theorem steps_within_source_broken : ByteSearch.linear.Lawful ∧
    ∃ run last, steps "<% \"é\nx" .linear 5 ofSource = .ok (run, last) ∧
      (∀ step ∈ run, step.2.cursor ≤ 8 ∧ OnBoundary "<% \"é\nx" step.2.cursor) ∧
      run.map Prod.fst = [.ok ⟨.logicOpen, "<%", ⟨1, 1⟩⟩, .error ⟨.unterminatedString, ⟨1, 4⟩⟩,
        .ok ⟨.identifier, "x", ⟨2, 1⟩⟩, .ok ⟨.endOfInput, "", ⟨2, 2⟩⟩, .ok ⟨.endOfInput, "", ⟨2, 2⟩⟩] := by
  have lawful : ByteSearch.linear.Lawful := ⟨fun _ _ => rfl, fun _ _ _ _ => rfl⟩
  obtain ⟨run, last, hsteps, hbounds, hrun⟩ := steps_within_source lawful "<% \"é\nx" 5
  refine ⟨lawful, run, last, hsteps, hbounds, ?_⟩
  have hitems := congrArg (List.map Prod.fst) hrun
  rw [List.map_map] at hitems
  exact hitems.trans (by decide +kernel)

end ByteReader

end Questionnaire
