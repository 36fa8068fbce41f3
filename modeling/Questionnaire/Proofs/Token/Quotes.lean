import Mathlib
import Questionnaire.Proofs.Token.LineEnds

/-! Where strings end. A backslash takes the character after it along, so a quote or a line feed counts only where it
stands for itself. The first main statement says that a string goes on to the first quote that does, and is a fault if
a line feed or the end of the text comes before it. The second one says that the line feeds inside of a string are
those that a backslash has taken along: no others do, but these let a string span lines. -/

namespace Questionnaire

namespace Lexeme

/-- The character at the place is taken along by a backslash before it. -/
def Escaped (text : List Char) : Nat → Prop
  | 0 => False
  | place + 1 => text[place]? = some '\\' ∧ ¬Escaped text place

/-- The character stands at the place for itself. -/
def StandsAt (text : List Char) (c : Char) (place : Nat) : Prop := text[place]? = some c ∧ ¬Escaped text place

/-- The first quote that stands for itself is at the place, with no line feed before it that does. -/
structure ClosesAt (quote : Char) (text : List Char) (place : Nat) : Prop where
  closes : StandsAt text quote place
  first : ∀ earlier < place, ¬StandsAt text quote earlier ∧ ¬StandsAt text '\n' earlier

/-- At the place the line or the text ends, with no quote before it that stands for itself. -/
structure BreaksAt (quote : Char) (text : List Char) (place : Nat) : Prop where
  ends : StandsAt text '\n' place ∨ place = text.length
  first : ∀ earlier < place, ¬StandsAt text quote earlier

instance decidableEscaped (text : List Char) : (place : Nat) → Decidable (Escaped text place)
  | 0 => isFalse id
  | place + 1 =>
    have := decidableEscaped text place
    inferInstanceAs (Decidable (_ ∧ ¬_))

instance (text : List Char) (c : Char) (place : Nat) : Decidable (StandsAt text c place) :=
  inferInstanceAs (Decidable (_ ∧ ¬_))

/-- A text as it is written between quotes. -/
def spelled (quote : Char) (text : List Char) : List Char :=
  text.flatMap fun c => if c = '\n' then ['\\', 'n'] else if c = '\\' ∨ c = quote then ['\\', c] else [c]

variable {quote c : Char} {text : List Char} {place : Nat}

theorem isQuote_cases (h : isQuote quote = true) : quote = '"' ∨ quote = '\'' := by
  simpa [isQuote] using h

theorem ne_of_isQuote (h : isQuote quote = true) : quote ≠ '\n' ∧ '\\' ≠ quote := by
  rcases isQuote_cases h with rfl | rfl <;> decide

theorem escaped_plain (hescape : c ≠ '\\') : Escaped (c :: text) (place + 1) ↔ Escaped text place := by
  induction place with
  | zero => simp [Escaped, hescape]
  | succ place ih => rw [Escaped, ih, Escaped, List.getElem?_cons_succ]

theorem escaped_escape : Escaped ('\\' :: c :: text) (place + 2) ↔ Escaped text place := by
  induction place with
  | zero => simp [Escaped]
  | succ place ih => rw [Escaped, ih, Escaped, List.getElem?_cons_succ, List.getElem?_cons_succ]

theorem standsAt_plain {d : Char} (hescape : c ≠ '\\') :
    StandsAt (c :: text) d (place + 1) ↔ StandsAt text d place := by
  rw [StandsAt, escaped_plain hescape, List.getElem?_cons_succ, StandsAt]

theorem standsAt_escape {d : Char} : StandsAt ('\\' :: c :: text) d (place + 2) ↔ StandsAt text d place := by
  rw [StandsAt, escaped_escape, List.getElem?_cons_succ, List.getElem?_cons_succ, StandsAt]

theorem standsAt_zero {d : Char} : StandsAt (c :: text) d 0 ↔ c = d := by
  simp [StandsAt, Escaped]

theorem not_standsAt_one {d : Char} : ¬StandsAt ('\\' :: text) d 1 := by
  simp [StandsAt, Escaped]

/-- The body of a string ends where the first quote or line feed stands for itself, or with the text. -/
theorem stringBody_stops (quote : Char) (text : List Char) :
    (∀ place < (stringBody quote text).1.length, ¬StandsAt text quote place ∧ ¬StandsAt text '\n' place) ∧
      ((stringBody quote text).1.length = text.length ∨ StandsAt text quote (stringBody quote text).1.length ∨
        StandsAt text '\n' (stringBody quote text).1.length) := by
  fun_induction stringBody quote text with
  | case1 => exact ⟨by simp, .inl rfl⟩
  | case2 c hstop => exact ⟨by simp, .inr (hstop.symm.imp standsAt_zero.mpr standsAt_zero.mpr)⟩
  | case3 c hstop =>
      obtain ⟨hline, hquote⟩ := not_or.mp hstop
      refine ⟨fun place hplace => ?_, .inl rfl⟩
      obtain rfl : place = 0 := by simpa using hplace
      exact ⟨mt standsAt_zero.mp hquote, mt standsAt_zero.mp hline⟩
  | case4 c d rest hstop => exact ⟨by simp, .inr (hstop.symm.imp standsAt_zero.mpr standsAt_zero.mpr)⟩
  | case5 d rest body left hsplit hstop ih =>
      obtain ⟨hline, hquote⟩ := not_or.mp hstop
      rw [hsplit] at ih
      obtain ⟨hfirst, hends⟩ := ih
      refine ⟨fun place hplace => ?_, ?_⟩
      · rcases place with _ | _ | place
        · exact ⟨mt standsAt_zero.mp hquote, mt standsAt_zero.mp hline⟩
        · exact ⟨not_standsAt_one, not_standsAt_one⟩
        · rw [standsAt_escape, standsAt_escape]
          exact hfirst place (by simpa using hplace)
      · simp only [List.length_cons, standsAt_escape, Nat.add_right_cancel_iff]
        exact hends
  | case6 c d rest hstop hescape body left hsplit ih =>
      obtain ⟨hline, hquote⟩ := not_or.mp hstop
      rw [hsplit] at ih
      obtain ⟨hfirst, hends⟩ := ih
      refine ⟨fun place hplace => ?_, ?_⟩
      · cases place with
        | zero => exact ⟨mt standsAt_zero.mp hquote, mt standsAt_zero.mp hline⟩
        | succ place =>
            rw [standsAt_plain hescape, standsAt_plain hescape]
            exact hfirst place (by simpa using hplace)
      · simp only [List.length_cons, standsAt_plain hescape, Nat.add_right_cancel_iff]
        exact hends

theorem stringBody_eq_take (quote : Char) (text : List Char) :
    stringBody quote text =
      (text.take (stringBody quote text).1.length, text.drop (stringBody quote text).1.length) := by
  have happend := stringBody_append quote text
  generalize stringBody quote text = split at happend
  obtain ⟨body, rest⟩ := split
  subst happend
  rw [List.take_left, List.drop_left]

theorem StandsAt.drop_eq (h : StandsAt text c place) : text.drop place = c :: text.drop (place + 1) := by
  obtain ⟨hlt, rfl⟩ := List.getElem?_eq_some_iff.mp h.1
  exact List.drop_eq_getElem_cons hlt

theorem ClosesAt.stringBody_eq (h : ClosesAt quote text place) :
    stringBody quote text = (text.take place, quote :: text.drop (place + 1)) := by
  obtain ⟨hbefore, hends⟩ := stringBody_stops quote text
  have hplace : (stringBody quote text).1.length = place := by
    rcases Nat.lt_trichotomy (stringBody quote text).1.length place with hlt | heq | hgt
    · have hlength := (List.getElem?_eq_some_iff.mp h.closes.1).1
      rcases hends with hend | hquote | hline
      · omega
      · exact absurd hquote (h.first _ hlt).1
      · exact absurd hline (h.first _ hlt).2
    · exact heq
    · exact absurd h.closes (hbefore place hgt).1
  rw [stringBody_eq_take, hplace, h.closes.drop_eq]

theorem BreaksAt.stringBody_ne (h : BreaksAt quote text place) (hquote : isQuote quote = true) (rest : List Char) :
    (stringBody quote text).2 ≠ quote :: rest := by
  obtain ⟨hbefore, hends⟩ := stringBody_stops quote text
  have hsplit := congrArg Prod.snd (stringBody_eq_take quote text)
  dsimp only at hsplit
  rw [hsplit]
  intro hrest
  have hstands : text[(stringBody quote text).1.length]? = some quote := by
    rw [← List.head?_drop, hrest, List.head?_cons]
  have hlength := (List.getElem?_eq_some_iff.mp hstands).1
  have hcloses : StandsAt text quote (stringBody quote text).1.length := by
    rcases hends with hend | hcloses | hline
    · omega
    · exact hcloses
    · exact absurd (Option.some.inj (hstands.symm.trans hline.1)) (ne_of_isQuote hquote).1
  have hle : place ≤ (stringBody quote text).1.length := not_lt.mp fun hlt => h.first _ hlt hcloses
  rcases h.ends with hline | hend
  · rcases hle.lt_or_eq with hlt | heq
    · exact (hbefore place hlt).2 hline
    · rw [heq] at hline
      exact (ne_of_isQuote hquote).1 (Option.some.inj (hcloses.1.symm.trans hline.1))
  · omega

end Lexeme

namespace Literal

variable {quote : Char} {body text : List Char}

theorem stringBody_append (h : Literal quote body text) (hquote : '\\' ≠ quote) (rest : List Char) :
    Lexeme.stringBody quote (body ++ quote :: rest) = (body, quote :: rest) := by
  induction h with
  | nil => exact Lexeme.stringBody_quote quote rest
  | plain hc hescape hline _ ih => rw [List.cons_append, Lexeme.stringBody_plain hline hc hescape, ih]
  | escape _ ih => rw [List.cons_append, List.cons_append, Lexeme.stringBody_escape hquote, ih]

theorem decoded_eq (h : Literal quote body text) : Lexeme.decoded body = text := by
  induction h with
  | nil => rfl
  | plain _ hescape _ _ ih => rw [Lexeme.decoded_cons_of_ne hescape, ih]
  | escape _ ih => rw [Lexeme.decoded, if_pos rfl, ih]

theorem spelled (hquote : Lexeme.isQuote quote = true) (text : List Char) :
    Literal quote (Lexeme.spelled quote text) text := by
  have hself : ∀ c, c = '\\' ∨ c = quote → Lexeme.escaped c = c := by
    rintro c (rfl | rfl)
    · rfl
    · rcases Lexeme.isQuote_cases hquote with rfl | rfl <;> rfl
  induction text with
  | nil => exact .nil
  | cons c text ih =>
      rw [Lexeme.spelled, List.flatMap_cons, ← Lexeme.spelled]
      split_ifs with hline hescape
      · rw [hline]
        exact .escape ih
      · have hescaped := ih.escape (c := c)
        rwa [hself c hescape] at hescaped
      · obtain ⟨hbackslash, hc⟩ := not_or.mp hescape
        exact .plain hc hbackslash hline ih

/-- A line feed in a literal has been taken along by a backslash. -/
theorem escaped_of_lineFeed (h : Literal quote body text) {place : Nat} (hline : body[place]? = some '\n') :
    Lexeme.Escaped body place := by
  induction h generalizing place with
  | nil => cases hline
  | plain _ hescape hc _ ih =>
      cases place with
      | zero => exact absurd (Option.some.inj hline) hc
      | succ place => exact (Lexeme.escaped_plain hescape).mpr (ih hline)
  | escape _ ih =>
      rcases place with _ | _ | place
      · cases hline
      · exact ⟨rfl, not_false⟩
      · exact Lexeme.escaped_escape.mpr (ih hline)

end Literal

namespace Scan

variable {mode : Mode} {quote : Char} {text body rest : List Char}

theorem string_of_body (h : Lexeme.stringBody quote text = (body, quote :: rest)) :
    string mode quote text =
      ⟨quote :: body ++ [quote], rest, mode, .ok (.string, String.ofList (Lexeme.decoded body))⟩ := by
  simp only [string, h, if_true]

end Scan

/-- A quote opens a string that goes on to the first quote standing for itself and denotes its body decoded. The string
is a fault, placed at the opening quote, if its line or the text ends before. Every text can be written as a string. -/
theorem Lexer.next_string {lexer : Lexer} {start : Cursor} {quote : Char} {text : List Char}
    (hmode : lexer.mode ≠ .text) (hstart : lexer.mode.skip lexer.cursor = start)
    (hquote : Lexeme.isQuote quote = true) (hrest : start.rest = quote :: text) :
    (∃ gap, Skips lexer.mode lexer.cursor start gap) ∧
      (∀ place, Lexeme.ClosesAt quote text place →
        ∃ word, Literal quote (text.take place) word ∧
          lexer.next = (.ok ⟨.string, .ofList word, start.position⟩,
            ⟨⟨text.drop (place + 1), start.position.past (quote :: text.take (place + 1))⟩,
              lexer.mode, lexer.done⟩)) ∧
      (∀ place, Lexeme.BreaksAt quote text place →
        lexer.next.1 = .error ⟨.unterminatedString, start.position⟩) ∧
      ∀ word rest, text = Lexeme.spelled quote word ++ quote :: rest →
        lexer.next = (.ok ⟨.string, .ofList word, start.position⟩,
          ⟨⟨rest, start.position.past (quote :: Lexeme.spelled quote word ++ [quote])⟩, lexer.mode, lexer.done⟩) := by
  have hscan := Scan.scan_quote hmode hquote text
  rw [← hrest] at hscan
  have hnext := Lexer.next_of_scan hstart hscan
  refine ⟨?_, fun place hcloses => ?_, fun place hbreaks => ?_, fun word rest htext => ?_⟩
  · rw [← hstart]
    exact lexer.mode.exists_skips lexer.cursor
  · have hbody := hcloses.stringBody_eq
    have hliteral := Lexeme.literal_stringBody quote text (congrArg Prod.snd hbody)
    rw [hbody] at hliteral
    have htake : text.take place ++ [quote] = text.take (place + 1) := by
      rw [List.take_add_one, hcloses.closes.1, Option.toList_some]
    refine ⟨_, hliteral, ?_⟩
    rw [hnext, Scan.string_of_body hbody, List.cons_append, htake]
    rfl
  · have hopen := (Scan.string_of_open lexer.mode (hbreaks.stringBody_ne hquote)).1
    rw [hnext, Scan.item, hopen]
  · subst htext
    have hliteral := Literal.spelled hquote word
    have hbody := hliteral.stringBody_append (Lexeme.ne_of_isQuote hquote).2 rest
    rw [hnext, Scan.string_of_body hbody, hliteral.decoded_eq]
    rfl

theorem Lexer.next_string_escaped :
    let lexer : Lexer := ⟨⟨" 'a\\'\"\\nb' = 1".toList, .origin⟩, .questionAttributes, false⟩
    let text := "a\\'\"\\nb' = 1".toList
    lexer.mode ≠ .text ∧ lexer.mode.skip lexer.cursor = ⟨'\'' :: text, ⟨1, 2⟩⟩ ∧ Lexeme.ClosesAt '\'' text 7 ∧
      ∃ word, Literal '\'' (text.take 7) word ∧
        lexer.next = (.ok ⟨.string, .ofList word, ⟨1, 2⟩⟩,
          ⟨⟨" = 1".toList, Position.past ⟨1, 2⟩ ('\'' :: text.take 8)⟩, .questionAttributes, false⟩) := by
  intro lexer text
  have hmode : lexer.mode ≠ .text := by decide
  have hstart : lexer.mode.skip lexer.cursor = ⟨'\'' :: text, ⟨1, 2⟩⟩ := by decide
  have hcloses : Lexeme.ClosesAt '\'' text 7 := ⟨by decide, by decide⟩
  exact ⟨hmode, hstart, hcloses, (Lexer.next_string hmode hstart rfl rfl).2.1 7 hcloses⟩

/-- A stretch of a source, with what stands before it and after it. -/
theorem Extent.append_of {extent : Extent} (source : List Char) (h : extent.start ≤ extent.stop) :
    source.take extent.start ++ extent.of source ++ source.drop extent.stop = source := by
  have hfront : source.take extent.start = (source.take extent.stop).take extent.start := by
    rw [List.take_take, Nat.min_eq_left h]
  rw [hfront, Extent.of, List.take_append_drop, List.take_append_drop]

namespace Covers

/-- A token of a run but the end of input is spelled by a stretch of the source that begins where the token is placed. -/
theorem exists_lexeme {source : List Char} {read : Nat} {mode : Mode} {run : List (Item × Lexer)}
    {extents : List Extent} {token : Token} (h : Covers source read mode run extents)
    (htoken : .ok token ∈ run.map Prod.fst) (hkind : token.kind ≠ .endOfInput) :
    ∃ before lexeme after, source = before ++ lexeme ++ after ∧ token.kind.Spelled token.text lexeme ∧
      token.position = .endOf before := by
  induction h with
  | endOfInput hend =>
      obtain rfl : token = _ := by simpa using htoken
      exact absurd hend hkind
  | fault => simp at htoken
  | @token _ _ first _ _ extent _ _ _ hstart hstop _ hspelled hposition _ ih =>
      simp only [List.map_cons, List.mem_cons, Except.ok.injEq] at htoken
      rcases htoken with rfl | hlater
      · exact ⟨_, _, _, (Extent.append_of source hstart.le).symm, hspelled, hposition⟩
      · exact ih hlater

end Covers

/-- The line feeds between the quotes of a string are those that backslashes have taken along. -/
theorem lineFeeds_of_string {source : String} {token : Token} (h : .ok token ∈ itemsOf source)
    (hkind : token.kind = .string) :
    ∃ (before body after : List Char) (quote : Char), source.toList = before ++ (quote :: body ++ [quote]) ++ after ∧
      Lexeme.isQuote quote = true ∧ token.position = .endOf before ∧ Literal quote body token.text.toList ∧
      ∀ place, body[place]? = some '\n' → Lexeme.Escaped body place := by
  obtain ⟨extents, hcovers⟩ := Lexer.covers_ofSource source
  obtain ⟨before, lexeme, after, hsource, hspelled, hposition⟩ := hcovers.exists_lexeme h (by simp [hkind])
  rw [hkind] at hspelled
  obtain ⟨quote, body, hquote, hliteral, rfl⟩ := hspelled
  exact ⟨before, body, after, quote, hsource, hquote, hposition, hliteral, fun _ => hliteral.escaped_of_lineFeed⟩

theorem lineFeeds_of_string_attribute :
    let source := "<< @a = 'b\\\n' >>"
    let token : Token := ⟨.string, "b\n", ⟨1, 9⟩⟩
    .ok token ∈ itemsOf source ∧ token.kind = .string ∧
      ∃ (before body after : List Char) (quote : Char),
        source.toList = before ++ (quote :: body ++ [quote]) ++ after ∧ Lexeme.isQuote quote = true ∧
        token.position = .endOf before ∧ Literal quote body token.text.toList ∧
        ∀ place, body[place]? = some '\n' → Lexeme.Escaped body place := by
  intro source token
  have htoken : .ok token ∈ itemsOf source := by
    have hitems : itemsOf source = [.ok ⟨.questionOpen, "<<", ⟨1, 1⟩⟩, .ok ⟨.attributeKeyword, "a", ⟨1, 4⟩⟩,
      .ok ⟨.punctuation, "=", ⟨1, 7⟩⟩, .ok token, .ok ⟨.questionClose, ">>", ⟨2, 3⟩⟩,
      .ok ⟨.endOfInput, "", ⟨2, 5⟩⟩] := by cbv
    simp [hitems]
  exact ⟨htoken, rfl, lineFeeds_of_string htoken rfl⟩

/-- A string can span lines: a backslash takes a line feed along as well. -/
theorem exists_string_over_lines :
    ∃ (source : String) (token : Token), .ok token ∈ itemsOf source ∧ token.kind = .string ∧
      ∃ before body after, source.toList = before ++ ('"' :: body ++ ['"']) ++ after ∧
        token.position = .endOf before ∧ Literal '"' body token.text.toList ∧ '\n' ∈ body := by
  have hitems : itemsOf "<% \"a\\\nb\" %>" = [.ok ⟨.logicOpen, "<%", ⟨1, 1⟩⟩, .ok ⟨.string, "a\nb", ⟨1, 4⟩⟩,
    .ok ⟨.logicClose, "%>", ⟨2, 4⟩⟩, .ok ⟨.endOfInput, "", ⟨2, 6⟩⟩] := by cbv
  refine ⟨_, ⟨.string, "a\nb", ⟨1, 4⟩⟩, by rw [hitems]; simp, rfl, "<% ".toList, "a\\\nb".toList, " %>".toList,
    by decide, by decide, ?_, by decide⟩
  exact .plain (by decide) (by decide) (by decide) (.escape (.plain (by decide) (by decide) (by decide) .nil))

end Questionnaire
