import Questionnaire.Proofs.Token.Bytes
import Questionnaire.Proofs.Token.Quotes

/-! Blanks and lexemes taken byte by byte. What may be in a word, a number or an operator is a matter of characters of
one byte each; a string has others too, and keeps what it has decoded beside the source from its first escape on. Each
scanner answers what the scan of the characters answers, and stands where that leaves off. -/

namespace Questionnaire

namespace Lexeme

variable {c : Char}

theorem narrow_isDigit : Text.Narrow Char.isDigit := by
  intro c hc
  simp only [Char.isDigit, Bool.and_eq_true, decide_eq_true_eq, UInt32.le_iff_toNat_le] at hc
  exact Nat.lt_of_le_of_lt hc.2 (by decide)

theorem narrow_isAlpha : Text.Narrow Char.isAlpha := by
  intro c hc
  simp only [Char.isAlpha, Char.isUpper, Char.isLower, Bool.or_eq_true, Bool.and_eq_true, decide_eq_true_eq,
    UInt32.le_iff_toNat_le] at hc
  rcases hc with hc | hc <;> exact Nat.lt_of_le_of_lt hc.2 (by decide)

theorem narrow_isWordStart : Text.Narrow isWordStart :=
  (narrow_isAlpha.or (.of_eq (by decide))).or (.of_eq (by decide))

theorem narrow_isWordPart : Text.Narrow isWordPart := narrow_isWordStart.or narrow_isDigit

theorem narrow_isSpace : Text.Narrow Text.isSpace :=
  ((((Text.Narrow.of_eq (by decide)).or (.of_eq (by decide))).or (.of_eq (by decide))).or (.of_eq (by decide))).or
    (.of_eq (by decide))

theorem narrow_isQuote : Text.Narrow isQuote := (Text.Narrow.of_eq (by decide)).or (.of_eq (by decide))

theorem narrow_isPunctuation : Text.Narrow isPunctuation := by
  have hmarks : ∀ d ∈ ['\x7b', '\x7d', '(', ')', ',', '|', ':', ';', '.'], d.toNat < 128 := by simp
  exact Text.Narrow.contains hmarks

theorem narrow_isOperatorStart : Text.Narrow isOperatorStart := by
  have hmarks : ∀ d ∈ ['+', '-', '*', '/', '%', '=', '<', '>', '!'], d.toNat < 128 := by simp
  exact Text.Narrow.contains hmarks

theorem operator_head (c : Char) (rest : List Char) :
    (operator (c :: rest)).1 = c :: (operator (c :: rest)).1.tail := by
  cases rest with
  | nil => rfl
  | cons d rest =>
      rw [operator]
      split_ifs <;> rfl

theorem number_digit (h : c.isDigit = true) (text : List Char) :
    number (c :: text) = (c :: (number text).1, (number text).2) := by
  unfold number
  rw [List.takeWhile_cons_of_pos h, List.dropWhile_cons_of_pos h]
  split <;> rfl

theorem number_point (text : List Char) :
    number ('.' :: text) = ('.' :: text.takeWhile Char.isDigit, text.dropWhile Char.isDigit) := rfl

theorem number_other (hpoint : c ≠ '.') (hdigit : c.isDigit = false) (text : List Char) :
    number (c :: text) = ([], c :: text) := by
  have hdigit : ¬ c.isDigit = true := Bool.eq_false_iff.mp hdigit
  unfold number
  rw [List.takeWhile_cons_of_neg hdigit, List.dropWhile_cons_of_neg hdigit]
  split
  next h => exact absurd (List.cons.inj h).1 hpoint
  next => rfl

/-- What was decoded of a string up to a place between its characters and escapes: the text itself while there was no
escape. -/
structure Decodes (seen : List Char) (value : Option String) : Prop where
  decoded_append (more : List Char) : decoded (seen ++ more) = decoded seen ++ decoded more
  value_eq : value.getD (String.ofList seen) = String.ofList (decoded seen)

namespace Decodes

variable {seen : List Char} {value : Option String}

theorem nil : Decodes [] none := ⟨fun _ => rfl, rfl⟩

theorem plain (h : Decodes seen value) (hc : c ≠ '\\') : Decodes (seen ++ [c]) (value.map (·.push c)) where
  decoded_append more := by
    rw [List.append_assoc, h.decoded_append, h.decoded_append, List.append_assoc, List.singleton_append,
      decoded_cons_of_ne hc, decoded_cons_of_ne hc]
    rfl
  value_eq := by
    have hgrown : (value.map (·.push c)).getD (String.ofList (seen ++ [c])) =
        (value.getD (String.ofList seen)).push c := by
      rw [String.push_eq_append]
      cases value with
      | none => exact String.ofList_append
      | some value => exact String.push_eq_append c
    rw [hgrown, h.value_eq, h.decoded_append, decoded_cons_of_ne hc, String.ofList_append]
    exact String.push_eq_append c

theorem escape (h : Decodes seen value) :
    Decodes (seen ++ ['\\', c]) (some ((value.getD (String.ofList seen)).push (escaped c))) where
  decoded_append more := by
    rw [List.append_assoc, h.decoded_append, h.decoded_append, List.append_assoc]
    rfl
  value_eq := by
    rw [Option.getD_some, h.value_eq, h.decoded_append, String.ofList_append]
    exact String.push_eq_append _

end Decodes

end Lexeme

namespace ByteReader

variable {source : String} {rest taken : List Char} {c : Char} {position : Position} {mode : Mode}
  {test : Char → Bool}

/-- What the scan of a text answers, as an answer of a reader. -/
def answer (source : String) (start : Cursor) (scan : Scan) : Except Move (Item × ByteReader) :=
  .ok (scan.item start.position, standing source ⟨scan.rest, start.position.past scan.taken⟩ scan.mode)

theorem peek_front (h : rest <:+ source.toList) :
    peek source 0 (standing source ⟨rest, position⟩ mode) =
      .ok (Text.front rest, standing source ⟨rest, position⟩ mode) := peek_standing h 0

section Passing

theorem passRound_of_pos (hnarrow : Text.Narrow test) (h : c :: rest <:+ source.toList) (htest : test c = true) :
    passRound source test (standing source ⟨c :: rest, position⟩ mode) =
      .ok (.inl (), standing source ⟨rest, position.step c⟩ mode) := by
  rw [passRound, bind_of_ok (peek_front h), hnarrow.front_cons, htest, if_pos rfl,
    bind_of_ok (advance_standing (hnarrow c htest) h)]
  rfl

theorem passRound_of_neg (hnarrow : Text.Narrow test) (hzero : test '\x00' = false) (h : rest <:+ source.toList)
    (hstop : ∀ c ∈ rest.head?, test c = false) :
    passRound source test (standing source ⟨rest, position⟩ mode) =
      .ok (.inr (), standing source ⟨rest, position⟩ mode) := by
  rw [passRound, bind_of_ok (peek_front h), hnarrow.front_eq_false hzero hstop, if_neg Bool.false_ne_true]
  rfl

theorem passWhile_standing (hnarrow : Text.Narrow test) (hzero : test '\x00' = false) (h : rest <:+ source.toList) :
    passWhile source test (standing source ⟨rest, position⟩ mode) =
      .ok ((), standing source ⟨rest.dropWhile test, position.past (rest.takeWhile test)⟩ mode) :=
  rounds_dropWhile (fun _ _ _ => passRound_of_pos hnarrow) (fun _ _ => passRound_of_neg hnarrow hzero) h

theorem blankRound_of_pos (h : c :: rest <:+ source.toList) (hblank : Text.isBlank c = true) :
    blankRound source (standing source ⟨c :: rest, position⟩ mode) =
      .ok (.inl (), standing source ⟨rest, position.step c⟩ mode) := by
  rw [blankRound, bind_of_ok (character?_standing h), List.head?_cons]
  dsimp only
  rw [if_pos hblank]
  exact bind_of_ok (bump_cons h)

theorem blankRound_of_neg (h : rest <:+ source.toList) (hstop : ∀ c ∈ rest.head?, Text.isBlank c = false) :
    blankRound source (standing source ⟨rest, position⟩ mode) =
      .ok (.inr (), standing source ⟨rest, position⟩ mode) := by
  rw [blankRound, bind_of_ok (character?_standing h)]
  cases rest with
  | nil => rfl
  | cons c rest =>
      rw [List.head?_cons]
      dsimp only
      rw [hstop c rfl, if_neg Bool.false_ne_true]
      rfl

/-- The blanks of free text are passed by characters, for some of them take more than one byte. -/
theorem passBlanks_standing (h : rest <:+ source.toList) :
    passBlanks source (standing source ⟨rest, position⟩ mode) =
      .ok ((), standing source (Cursor.skipWhile Text.isBlank ⟨rest, position⟩) mode) :=
  rounds_dropWhile (fun _ _ _ => blankRound_of_pos) (fun _ _ => blankRound_of_neg) h

end Passing

theorem readWord_standing (h : rest <:+ source.toList) :
    readWord source (standing source ⟨rest, position⟩ mode) =
      .ok (String.ofList (Lexeme.word rest).1,
        standing source ⟨(Lexeme.word rest).2, position.past (Lexeme.word rest).1⟩ mode) := by
  rw [readWord, get_bind, bind_of_ok (passWhile_standing Lexeme.narrow_isWordPart rfl h), get_bind]
  exact textBetween_standing (Lexeme.word_append rest) h _

theorem word_standing (h : rest <:+ source.toList) :
    word source position (standing source ⟨rest, position⟩ mode) =
      answer source ⟨rest, position⟩ (Scan.word mode rest) := by
  rw [word, bind_of_ok (readWord_standing h)]
  rfl

section Numbers

variable {pointed : Bool}

theorem numberRound_point (h : '.' :: rest <:+ source.toList) :
    numberRound source false (standing source ⟨'.' :: rest, position⟩ mode) =
      .ok (.inl true, standing source ⟨rest, position.step '.'⟩ mode) := by
  rw [numberRound, bind_of_ok (peek_front h), Text.front_of_narrow (by decide), if_pos ⟨rfl, rfl⟩,
    bind_of_ok (advance_standing (by decide) h)]
  rfl

theorem numberRound_digit (hdigit : c.isDigit = true) (h : c :: rest <:+ source.toList) :
    numberRound source pointed (standing source ⟨c :: rest, position⟩ mode) =
      .ok (.inl pointed, standing source ⟨rest, position.step c⟩ mode) := by
  have hnarrow := Lexeme.narrow_isDigit c hdigit
  have hpoint : c ≠ '.' := by
    rintro rfl
    exact absurd hdigit (by decide)
  rw [numberRound, bind_of_ok (peek_front h), Text.front_of_narrow hnarrow, if_neg fun hfirst => hpoint hfirst.1,
    if_pos hdigit, bind_of_ok (advance_standing hnarrow h)]
  rfl

theorem numberRound_other (hdigit : ∀ c ∈ rest.head?, c.isDigit = false)
    (hpoint : pointed = false → ∀ c ∈ rest.head?, c ≠ '.') (h : rest <:+ source.toList) :
    numberRound source pointed (standing source ⟨rest, position⟩ mode) =
      .ok (.inr (), standing source ⟨rest, position⟩ mode) := by
  have hfirst : ¬(Text.front rest = '.' ∧ pointed = false) := by
    rintro ⟨hfront, hpointed⟩
    cases rest with
    | nil => exact absurd hfront (by decide)
    | cons c rest => exact hpoint hpointed c rfl ((Text.front_eq_iff (by decide)).mp hfront)
  rw [numberRound, bind_of_ok (peek_front h), if_neg hfirst, Lexeme.narrow_isDigit.front_eq_false rfl hdigit,
    if_neg Bool.false_ne_true]
  rfl

/-- Behind the point only digits belong to the number. -/
theorem rounds_fraction (h : rest <:+ source.toList) :
    rounds source (numberRound source) true (standing source ⟨rest, position⟩ mode) =
      .ok ((), standing source ⟨rest.dropWhile Char.isDigit, position.past (rest.takeWhile Char.isDigit)⟩ mode) :=
  rounds_dropWhile (fun _ _ _ h hdigit => numberRound_digit hdigit h)
    (fun _ _ h hstop => numberRound_other hstop (fun hpointed => nomatch hpointed) h) h

theorem rounds_number (h : rest <:+ source.toList) :
    rounds source (numberRound source) false (standing source ⟨rest, position⟩ mode) =
      .ok ((), standing source ⟨(Lexeme.number rest).2, position.past (Lexeme.number rest).1⟩ mode) := by
  induction rest generalizing position with
  | nil => exact rounds_of_inr (numberRound_other (fun _ hc => nomatch hc) (fun _ _ hc => nomatch hc) h)
  | cons c rest ih =>
      have hrest := (List.suffix_cons c rest).trans h
      cases hdigit : c.isDigit with
      | true =>
          rw [rounds_cons h (numberRound_digit hdigit h), ih hrest, Lexeme.number_digit hdigit]
          rfl
      | false =>
          by_cases hpoint : c = '.'
          · subst hpoint
            rw [rounds_cons h (numberRound_point h), rounds_fraction hrest, Lexeme.number_point]
            rfl
          · rw [Lexeme.number_other hpoint hdigit]
            refine rounds_of_inr (numberRound_other ?_ (fun _ => ?_) h)
            · rintro _ ⟨⟩
              exact hdigit
            · rintro _ ⟨⟩
              exact hpoint

theorem number_standing (h : rest <:+ source.toList) :
    number source position (standing source ⟨rest, position⟩ mode) =
      answer source ⟨rest, position⟩ (Scan.number mode rest) := by
  have hscan : Scan.number mode rest =
      if (Double.read? (Lexeme.number rest).1).isSome then Scan.lexeme mode .number (Lexeme.number rest)
      else ⟨(Lexeme.number rest).1, (Lexeme.number rest).2, mode,
        .error (.invalidNumber (String.ofList (Lexeme.number rest).1))⟩ := rfl
  rw [number, get_bind, bind_of_ok (rounds_number h), get_bind, standing_cursor, standing_cursor,
    bind_of_ok (textBetween_standing (Lexeme.number_append rest) h _), String.toList_ofList, hscan]
  split_ifs <;> rfl

end Numbers

section Operators

theorem mem_operators_iff {lexeme : List Char} :
    operators.contains (String.ofList lexeme) = true ↔ lexeme ∈ Lexeme.operators := by
  have hoperators : operators = Lexeme.operators.map String.ofList := rfl
  rw [List.contains_iff_mem, hoperators, List.mem_map_of_injective fun _ _ => String.ofList_injective]

/-- A text can be grown by the byte ahead just if that byte is a character. -/
theorem textBetween?_standing (htext : taken ++ c :: rest = text) (h : text <:+ source.toList) :
    textBetween? source (place source text) (place source (c :: rest) + 1) =
      if c.toNat < 128 then some (String.ofList (taken ++ [c])) else none := by
  have hrest : c :: rest <:+ source.toList := (htext ▸ List.suffix_append taken (c :: rest)).trans h
  rcases Nat.lt_or_ge c.toNat 128 with hc | hc
  · have hplace : place source (c :: rest) + 1 = place source rest := by
      rw [place_cons hrest, Text.utf8Size_of_narrow hc]
    have hgrown : taken ++ [c] ++ rest = text := by rw [← htext, List.append_assoc, List.singleton_append]
    rw [if_pos hc, hplace, textBetween?, if_pos (cutText_allowed hgrown h), ← hgrown, extract_place (hgrown ▸ h)]
  · rw [if_neg (Nat.not_lt.mpr hc), textBetween?, if_neg]
    rintro ⟨-, -, -, hstop⟩
    exact not_onBoundary hrest Nat.one_pos (Text.one_lt_utf8Size hc) hstop

theorem textBetween?_end (start : Nat) : textBetween? source start (place source [] + 1) = none := by
  rw [textBetween?, if_neg]
  rintro ⟨-, hstop, -⟩
  rw [place_nil] at hstop
  omega

theorem operatorRound_grows (htext : taken ++ c :: rest = text) (hc : c.toNat < 128)
    (hgrown : taken ++ [c] ∈ Lexeme.operators) (h : text <:+ source.toList) :
    operatorRound source (place source text) (standing source ⟨c :: rest, position⟩ mode) =
      .ok (.inl (), standing source ⟨rest, position.step c⟩ mode) := by
  have hrest : c :: rest <:+ source.toList := (htext ▸ List.suffix_append taken (c :: rest)).trans h
  rw [operatorRound, get_bind, standing_cursor, textBetween?_standing htext h, if_pos hc]
  dsimp only
  rw [if_pos (mem_operators_iff.mpr hgrown), bind_of_ok (advance_standing hc hrest)]
  rfl

theorem operatorRound_stops (htext : taken ++ rest = text)
    (hstop : ∀ d ∈ rest.head?, taken ++ [d] ∉ Lexeme.operators) (h : text <:+ source.toList) :
    operatorRound source (place source text) (standing source ⟨rest, position⟩ mode) =
      .ok (.inr (), standing source ⟨rest, position⟩ mode) := by
  rw [operatorRound, get_bind, standing_cursor]
  cases rest with
  | nil =>
      rw [textBetween?_end]
      rfl
  | cons c rest =>
      rw [textBetween?_standing htext h]
      by_cases hc : c.toNat < 128
      · rw [if_pos hc]
        dsimp only
        rw [if_neg (mt mem_operators_iff.mp (hstop c rfl))]
        rfl
      · rw [if_neg hc]
        rfl

theorem rounds_operator (c : Char) (h : c :: rest <:+ source.toList) :
    rounds source (fun _ => operatorRound source (place source (c :: rest))) ()
        (standing source ⟨rest, position⟩ mode) =
      .ok ((), standing source ⟨(Lexeme.operator (c :: rest)).2,
        position.past (Lexeme.operator (c :: rest)).1.tail⟩ mode) := by
  have hrest := (List.suffix_cons c rest).trans h
  cases rest with
  | nil => exact rounds_of_inr (operatorRound_stops (List.append_nil [c]) (fun d hd => nomatch hd) h)
  | cons d rest =>
      rw [Lexeme.operator]
      split_ifs with hlong
      · obtain ⟨rfl, hc⟩ := hlong
        have hgrown : [c] ++ ['='] ∈ Lexeme.operators := by
          rcases hc with rfl | rfl | rfl | rfl <;> simp [Lexeme.operators]
        rw [rounds_cons hrest (operatorRound_grows List.singleton_append (by decide) hgrown h)]
        refine rounds_of_inr (operatorRound_stops (show [c, '='] ++ rest = _ from rfl) (fun e _ hmem => ?_) h)
        rcases Lexeme.joined_of_mem_operators hmem with hshort | ⟨_, hlong, -⟩
        · simp at hshort
        · simp at hlong
      · refine rounds_of_inr (operatorRound_stops List.singleton_append (fun e he hmem => ?_) h)
        obtain rfl := Option.some.inj he
        rcases Lexeme.joined_of_mem_operators hmem with hshort | ⟨_, hjoined, hc⟩
        · simp at hshort
        · simp only [List.singleton_append, List.cons.injEq, and_true] at hjoined
          exact hlong ⟨hjoined.2, hjoined.1 ▸ hc⟩

theorem operator_standing (hoperator : Lexeme.isOperatorStart c = true) (h : c :: rest <:+ source.toList) :
    operator source position (standing source ⟨c :: rest, position⟩ mode) =
      answer source ⟨c :: rest, position⟩ (Scan.lexeme mode .operator (Lexeme.operator (c :: rest))) := by
  have hlexeme := Lexeme.operator_append (c :: rest)
  rw [operator, get_bind, bind_of_ok (advance_standing (Lexeme.narrow_isOperatorStart c hoperator) h),
    standing_cursor, bind_of_ok (rounds_operator c h), get_bind, standing_cursor,
    bind_of_ok (textBetween_standing hlexeme h _), ← Position.past_cons, ← Lexeme.operator_head]
  rfl

end Operators

section Strings

variable {quote : Char} {seen : List Char} {decoded : Option String}

theorem stringRound_end (begin : Nat) (byte : UInt8) (h : [] <:+ source.toList) :
    stringRound source byte begin decoded (standing source ⟨[], position⟩ mode) =
      .ok (.inr none, standing source ⟨[], position⟩ mode) := by
  rw [stringRound, bind_of_ok (peek_front h), bind_of_ok (atEnd_standing h)]
  rfl

theorem stringRound_lineFeed (begin : Nat) (byte : UInt8) (h : '\n' :: rest <:+ source.toList) :
    stringRound source byte begin decoded (standing source ⟨'\n' :: rest, position⟩ mode) =
      .ok (.inr none, standing source ⟨'\n' :: rest, position⟩ mode) := by
  rw [stringRound, bind_of_ok (peek_front h), bind_of_ok (atEnd_standing h), Text.front_of_narrow (by decide)]
  rfl

theorem stringRound_quote (hquote : Lexeme.isQuote quote = true) (begin : Nat) (h : quote :: rest <:+ source.toList) :
    stringRound source quote.toUInt8 begin decoded (standing source ⟨quote :: rest, position⟩ mode) =
      .ok (.inr (some decoded), standing source ⟨quote :: rest, position⟩ mode) := by
  have hnarrow := Lexeme.narrow_isQuote quote hquote
  rw [stringRound, bind_of_ok (peek_front h), bind_of_ok (atEnd_standing h), Text.front_of_narrow hnarrow,
    Text.ofUInt8_toUInt8 hnarrow, if_neg (by simp), if_neg (Lexeme.ne_of_isQuote hquote).1, if_pos rfl]
  rfl

theorem stringRound_plain (hquote : Lexeme.isQuote quote = true) (begin : Nat) (hline : c ≠ '\n') (hc : c ≠ quote)
    (hescape : c ≠ '\\') (h : c :: rest <:+ source.toList) :
    stringRound source quote.toUInt8 begin decoded (standing source ⟨c :: rest, position⟩ mode) =
      .ok (.inl (decoded.map (·.push c)), standing source ⟨rest, position.step c⟩ mode) := by
  have hnarrow := Lexeme.narrow_isQuote quote hquote
  rw [stringRound, bind_of_ok (peek_front h), bind_of_ok (atEnd_standing h), Text.ofUInt8_toUInt8 hnarrow,
    if_neg (by simp), if_neg (mt (Text.front_eq_iff (by decide)).mp hline),
    if_neg (mt (Text.front_eq_iff hnarrow).mp hc), if_neg (mt (Text.front_eq_iff (by decide)).mp hescape),
    bind_of_ok (advanceCharacter_standing h)]
  rfl

theorem stringRound_escape (hquote : Lexeme.isQuote quote = true) (htext : seen ++ '\\' :: rest = text)
    (h : text <:+ source.toList) :
    stringRound source quote.toUInt8 (place source text) decoded (standing source ⟨'\\' :: rest, position⟩ mode) =
      .ok (match rest.head? with
        | some c => .inl (some ((decoded.getD (String.ofList seen)).push (Lexeme.escaped c)))
        | none => .inr none,
        standing source ⟨rest.tail, (position.step '\\').past rest.head?.toList⟩ mode) := by
  have hescape : '\\' :: rest <:+ source.toList := (htext ▸ List.suffix_append seen _).trans h
  have hrest := (List.suffix_cons _ _).trans hescape
  have hnarrow := Lexeme.narrow_isQuote quote hquote
  rw [stringRound, bind_of_ok (peek_front hescape), bind_of_ok (atEnd_standing hescape),
    Text.front_of_narrow (by decide), Text.ofUInt8_toUInt8 hnarrow, if_neg (by simp), if_neg (by decide),
    if_neg (Lexeme.ne_of_isQuote hquote).2, if_pos rfl, get_bind, standing_cursor,
    bind_of_ok (textBetween_standing htext h _), bind_of_ok (advance_standing (by decide) hescape),
    bind_of_ok (advanceCharacter_standing hrest)]
  cases rest <;> rfl

/-- The outcome of a string: closed by its quote with what was decoded up to there, or not closed. -/
inductive Ends (quote : Char) (body after : List Char) : Option (Option String) → Prop where
  | closed {decoded : Option String} (hafter : after.head? = some quote) (h : Lexeme.Decodes body decoded) :
      Ends quote body after (some decoded)
  | broken (hafter : after.head? ≠ some quote) : Ends quote body after none

theorem exists_rounds_of_stop (hquote : Lexeme.isQuote quote = true) (hstop : c = '\n' ∨ c = quote) (begin : Nat)
    (h : c :: rest <:+ source.toList) (hdecodes : Lexeme.Decodes seen decoded) :
    ∃ outcome, rounds source (stringRound source quote.toUInt8 begin) decoded
        (standing source ⟨c :: rest, position⟩ mode) = .ok (outcome, standing source ⟨c :: rest, position⟩ mode) ∧
      Ends quote seen (c :: rest) outcome := by
  rcases hstop with rfl | rfl
  · refine ⟨none, rounds_of_inr (stringRound_lineFeed _ _ h), .broken fun hhead => ?_⟩
    exact (Lexeme.ne_of_isQuote hquote).1 (Option.some.inj hhead).symm
  · exact ⟨some decoded, rounds_of_inr (stringRound_quote hquote _ h), .closed rfl hdecodes⟩

/-- The rounds of a string follow its characters and escapes. What was seen of it and what was decoded of that grow
together, and at the end the one tells the other. -/
theorem exists_rounds_string (position : Position) (mode : Mode) (hquote : Lexeme.isQuote quote = true)
    (htext : seen ++ rest = text) (h : text <:+ source.toList) (hdecodes : Lexeme.Decodes seen decoded) :
    ∃ outcome, rounds source (stringRound source quote.toUInt8 (place source text)) decoded
        (standing source ⟨rest, position⟩ mode) =
          .ok (outcome, standing source ⟨(Lexeme.stringBody quote rest).2,
            position.past (Lexeme.stringBody quote rest).1⟩ mode) ∧
      Ends quote (seen ++ (Lexeme.stringBody quote rest).1) (Lexeme.stringBody quote rest).2 outcome := by
  have hrest : rest <:+ source.toList := (htext ▸ List.suffix_append seen rest).trans h
  fun_induction Lexeme.stringBody quote rest generalizing seen decoded position with
  | case1 => exact ⟨none, rounds_of_inr (stringRound_end _ _ hrest), .broken (by simp)⟩
  | case2 c hstop =>
      rw [List.append_nil]
      exact exists_rounds_of_stop hquote hstop _ hrest hdecodes
  | case3 c hstop =>
      obtain ⟨hline, hclose⟩ := not_or.mp hstop
      refine ⟨none, ?_, .broken (by simp)⟩
      by_cases hescape : c = '\\'
      · subst hescape
        exact rounds_of_inr (stringRound_escape hquote htext h)
      · rw [rounds_cons hrest (stringRound_plain hquote _ hline hclose hescape hrest)]
        exact rounds_of_inr (stringRound_end _ _ ((List.suffix_cons _ _).trans hrest))
  | case4 c d rest hstop =>
      rw [List.append_nil]
      exact exists_rounds_of_stop hquote hstop _ hrest hdecodes
  | case5 d rest body left hsplit hstop ih =>
      rw [hsplit] at ih
      have htaken : ['\\', d] ++ rest = '\\' :: d :: rest := rfl
      have hseen : seen ++ ['\\', d] ++ rest = text := by rw [List.append_assoc, htaken, htext]
      obtain ⟨outcome, hrounds, hends⟩ := ih ((position.step '\\').step d) hseen hdecodes.escape
        ((List.suffix_append _ _).trans (htaken ▸ hrest))
      refine ⟨outcome, ?_, by rwa [List.append_assoc] at hends⟩
      exact (rounds_standing htaken (List.cons_ne_nil _ _) hrest (stringRound_escape hquote htext h)).trans hrounds
  | case6 c d rest hstop hescape body left hsplit ih =>
      obtain ⟨hline, hclose⟩ := not_or.mp hstop
      rw [hsplit] at ih
      have hseen : seen ++ [c] ++ d :: rest = text := by rw [List.append_assoc, List.singleton_append, htext]
      obtain ⟨outcome, hrounds, hends⟩ := ih (position.step c) hseen (hdecodes.plain hescape)
        ((List.suffix_cons c _).trans hrest)
      refine ⟨outcome, ?_, by rwa [List.append_assoc] at hends⟩
      exact (rounds_cons hrest (stringRound_plain hquote _ hline hclose hescape hrest)).trans hrounds

theorem string_standing (hquote : Lexeme.isQuote quote = true) (h : quote :: rest <:+ source.toList) :
    string source position (standing source ⟨quote :: rest, position⟩ mode) =
      answer source ⟨quote :: rest, position⟩ (Scan.string mode quote rest) := by
  have hrest := (List.suffix_cons quote rest).trans h
  have hnarrow := Lexeme.narrow_isQuote quote hquote
  obtain ⟨outcome, hrounds, hends⟩ :=
    exists_rounds_string (position.step quote) mode hquote (List.nil_append rest) hrest .nil
  have happend := Lexeme.stringBody_append quote rest
  rw [string, bind_of_ok (advance_standing hnarrow h), get_bind, standing_cursor, bind_of_ok hrounds]
  unfold Scan.string
  generalize Lexeme.stringBody quote rest = split at hends happend
  obtain ⟨body, after⟩ := split
  dsimp only at hends happend ⊢
  rw [List.nil_append] at hends
  cases hends with
  | broken hafter =>
      cases after with
      | nil => rfl
      | cons c after =>
          dsimp only
          rw [if_neg fun hc => hafter (congrArg some hc)]
          rfl
  | @closed decoded hafter hdecodes =>
      obtain ⟨after, rfl⟩ := List.head?_eq_some_iff.mp hafter
      have hclose : quote :: after <:+ source.toList := (happend ▸ List.suffix_append body _).trans hrest
      have hvalue := hdecodes.value_eq
      dsimp only
      rw [get_bind, bind_of_ok (advance_standing hnarrow hclose), if_pos rfl, standing_cursor]
      have hposition : ((position.step quote).past body).step quote = position.past (quote :: body ++ [quote]) := by
        rw [List.cons_append, Position.past_cons, Position.past_append]
        rfl
      rw [hposition]
      cases decoded with
      | some value =>
          obtain rfl : value = String.ofList (Lexeme.decoded body) := hvalue
          rfl
      | none =>
          have hbody : String.ofList body = String.ofList (Lexeme.decoded body) := hvalue
          dsimp only
          rw [bind_of_ok (textBetween_standing happend hrest _), hbody]
          rfl

end Strings

theorem opening_standing (opener : Opener) (h : opener.spelling ++ rest <:+ source.toList) :
    opening source opener position (standing source ⟨opener.spelling ++ rest, position⟩ mode) =
      answer source ⟨opener.spelling ++ rest, position⟩
        (Scan.lexeme (opener.leadsTo mode) opener.kind (opener.spelling, rest)) := by
  have hbytes : String.utf8Len opener.spelling = opener.spelling.length := by cases opener <;> rfl
  rw [opening, ← hbytes, bind_of_ok (bump_standing rfl h)]
  rfl

theorem closing_standing (closer : Closer) (hbytes : String.utf8Len closer.spelling = closer.spelling.length)
    (h : closer.spelling ++ rest <:+ source.toList) :
    closing source closer position (standing source ⟨closer.spelling ++ rest, position⟩ mode) =
      answer source ⟨closer.spelling ++ rest, position⟩
        (Scan.lexeme closer.leadsTo closer.kind (closer.spelling, rest)) := by
  rw [closing, ← hbytes, bind_of_ok (bump_standing rfl h)]
  rfl

theorem unexpected_standing (h : c :: rest <:+ source.toList) :
    unexpected source position (standing source ⟨c :: rest, position⟩ mode) =
      answer source ⟨c :: rest, position⟩ (Scan.unexpected mode c rest) := by
  rw [unexpected, bind_of_ok (character?_standing h)]
  rfl

end ByteReader

end Questionnaire
