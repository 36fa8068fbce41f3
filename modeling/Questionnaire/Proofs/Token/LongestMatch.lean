import Questionnaire.Proofs.Token.Numerals

/-! The scanner of logic as one for longest matches. What begins a text in a language of logic is told by the shapes of
lexemes alone: the mark that closes the language, and the longest word, number or operator. The main statement is about
any lexer that stands in such a language: it yields what begins the text behind spaces and remarks, and finds fault
only where nothing does. -/

namespace Questionnaire

/-- The lexeme is the longest front of the text that has the shape. -/
structure Longest (shape : List Char → Prop) (lexeme text : List Char) : Prop where
  front : lexeme <+: text
  shaped : shape lexeme
  longest : ∀ other, other <+: text → shape other → other.length ≤ lexeme.length

theorem Longest.eq {shape : List Char → Prop} {left right text : List Char} (hleft : Longest shape left text)
    (hright : Longest shape right text) : left = right := by
  have hle := hright.longest left hleft.front hleft.shaped
  have hge := hleft.longest right hright.front hright.shaped
  exact (List.prefix_of_prefix_length_le hleft.front hright.front hle).eq_of_length (by omega)

/-- A front of the text is not longer than the longest one with the property in each character. -/
theorem length_le_takeWhile {part : Char → Bool} {front text : List Char} (hfront : front <+: text)
    (h : ∀ c ∈ front, part c = true) : front.length ≤ (text.takeWhile part).length := by
  obtain ⟨rest, rfl⟩ := hfront
  rw [List.takeWhile_append_of_pos h, List.length_append]
  omega

namespace Lexeme

theorem ne_of_part {part : Char → Bool} {c d : Char} (hc : part c = true) (hd : part d = false) : c ≠ d := by
  rintro rfl
  rw [hc] at hd
  cases hd

/-- Two classes of characters are apart where no mark of the one belongs to the other. -/
theorem contains_eq_false {part : Char → Bool} {marks : List Char} (h : (marks.all fun d => !part d) = true) {c : Char}
    (hc : part c = true) : marks.contains c = false := by
  rw [← Bool.not_eq_true, List.contains_iff_mem]
  intro hmem
  have hd : part c = false := by simpa using List.all_eq_true.mp h c hmem
  exact ne_of_part hc hd rfl

theorem isQuote_eq_false {part : Char → Bool} (h : (['"', '\''].all fun d => !part d) = true) {c : Char}
    (hc : part c = true) : isQuote c = false := by
  have hmarks := contains_eq_false h hc
  rwa [List.contains_cons, List.contains_cons, List.contains_nil, Bool.or_false] at hmarks

theorem isDigit_eq_false_of_isWordStart {c : Char} (h : isWordStart c = true) : c.isDigit = false := by
  rw [← Bool.not_eq_true]
  intro hdigit
  simp only [isWordStart, Char.isAlpha, Char.isUpper, Char.isLower, Bool.or_eq_true, Bool.and_eq_true,
    decide_eq_true_eq, beq_iff_eq, Char.isDigit, UInt32.le_iff_toNat_le, ge_iff_le] at h hdigit
  rcases h with (h | rfl) | rfl
  · simp at h hdigit
    omega
  · simp at hdigit
  · simp at hdigit

theorem isDigit_eq_false_of_isOperatorStart {c : Char} (h : isOperatorStart c = true) : c.isDigit = false := by
  rw [← Bool.not_eq_true]
  intro hdigit
  have hnone : isOperatorStart c = false := contains_eq_false rfl hdigit
  exact ne_of_part h hnone rfl

theorem startsNumber_eq_false {c : Char} (hpoint : c ≠ '.') (hdigit : c.isDigit = false) (rest : List Char) :
    startsNumber (c :: rest) = false := by
  cases rest with
  | nil => simpa [startsNumber] using hdigit
  | cons d rest => rw [startsNumber_cons_cons, if_neg hpoint, hdigit]

/-- Letters, digits, underscores and dollar signs, of which a digit does not come first. -/
structure IsWord (lexeme : List Char) : Prop where
  starts : ∃ c ∈ lexeme.head?, isWordStart c = true
  parts : ∀ c ∈ lexeme, isWordPart c = true

/-- Digits with at most one point, beginning with a digit or with a point and a digit. -/
structure IsNumber (lexeme : List Char) : Prop where
  starts : startsNumber lexeme = true
  parts : ∀ c ∈ lexeme, c.isDigit = true ∨ c = '.'
  points : lexeme.count '.' ≤ 1

/-- The operators that are no words. -/
def operators : List (List Char) :=
  [['=', '='], ['!', '='], ['<', '='], ['>', '='], ['<'], ['>'], ['+'], ['-'], ['*'], ['/'], ['%'], ['!'], ['=']]

theorem longest_word {c : Char} {rest : List Char} (h : isWordStart c = true) :
    Longest IsWord (word (c :: rest)).1 (c :: rest) where
  front := ⟨_, word_append (c :: rest)⟩
  shaped := by
    refine ⟨⟨c, ?_, h⟩, fun d hd => List.mem_takeWhile_imp hd⟩
    rw [word, List.takeWhile_cons_of_pos (by rw [isWordPart, h, Bool.true_or])]
    rfl
  longest other hother hword := length_le_takeWhile hother hword.parts

theorem count_point {digits : List Char} (h : ∀ c ∈ digits, c.isDigit = true) : digits.count '.' = 0 := by
  apply List.count_eq_zero.mpr
  intro hmem
  cases h '.' hmem

theorem isNumber_number {text : List Char} (h : startsNumber text = true) : IsNumber (number text).1 := by
  have hstarts := startsNumber_number h []
  rw [List.append_nil] at hstarts
  have hdecimal := Numeral.decimal_number h
  generalize (number text).1 = lexeme at hstarts hdecimal
  cases hdecimal with
  | whole hdigits hne => exact ⟨hstarts, fun c hc => .inl (hdigits c hc), by rw [count_point hdigits]; omega⟩
  | @pointed whole fraction hwhole hfraction hne =>
      refine ⟨hstarts, fun c hc => ?_, ?_⟩
      · rw [List.mem_append, List.mem_cons] at hc
        rcases hc with hc | rfl | hc
        · exact .inl (hwhole c hc)
        · exact .inr rfl
        · exact .inl (hfraction c hc)
      · rw [List.count_append, List.count_cons_self, count_point hwhole, count_point hfraction]

theorem takeWhile_length_le_number (text : List Char) :
    (text.takeWhile Char.isDigit).length ≤ (number text).1.length := by
  unfold number
  dsimp only
  split
  · rw [List.length_append]
    omega
  · exact le_refl _

/-- A number with one point is not longer than what the scan takes. -/
theorem pointed_length_le_number {whole fraction text : List Char} (hfront : whole ++ '.' :: fraction <+: text)
    (hwhole : ∀ c ∈ whole, c.isDigit = true) (hfraction : ∀ c ∈ fraction, c.isDigit = true) :
    (whole ++ '.' :: fraction).length ≤ (number text).1.length := by
  obtain ⟨rest, rfl⟩ := hfront
  obtain ⟨htake, hdrop⟩ := Numeral.takeWhile_digits hwhole (fraction ++ rest)
  have hlength := length_le_takeWhile (List.prefix_append fraction rest) hfraction
  have hnumber : (number (whole ++ '.' :: (fraction ++ rest))).1 =
      whole ++ '.' :: (fraction ++ rest).takeWhile Char.isDigit := by
    simp only [number, htake, hdrop]
  rw [List.append_assoc, List.cons_append, hnumber]
  simp only [List.length_append, List.length_cons]
  omega

theorem longest_number {text : List Char} (h : startsNumber text = true) : Longest IsNumber (number text).1 text where
  front := ⟨_, number_append text⟩
  shaped := isNumber_number h
  longest other hother hnumber := by
    have hdigits (part : List Char) (hpart : part ⊆ other) (hnone : '.' ∉ part) : ∀ c ∈ part, c.isDigit = true := by
      intro c hc
      apply (hnumber.parts c (hpart hc)).resolve_right
      rintro rfl
      exact hnone hc
    by_cases hpoint : '.' ∈ other
    · obtain ⟨whole, fraction, rfl⟩ := List.append_of_mem hpoint
      have hcount := hnumber.points
      rw [List.count_append, List.count_cons_self] at hcount
      have hwhole : '.' ∉ whole := List.count_eq_zero.mp (by omega)
      have hfraction : '.' ∉ fraction := List.count_eq_zero.mp (by omega)
      apply pointed_length_le_number hother
      · exact hdigits whole (List.subset_append_left _ _) hwhole
      · exact hdigits fraction (fun c hc => List.mem_append_right _ (List.mem_cons_of_mem _ hc)) hfraction
    · have hlength := length_le_takeWhile hother (hdigits other (fun _ => id) hpoint)
      have := takeWhile_length_le_number text
      omega

theorem singleton_mem_operators {c : Char} (h : isOperatorStart c = true) : [c] ∈ operators := by
  have hc := List.contains_iff_mem.mp h
  simp only [List.mem_cons, List.not_mem_nil, or_false] at hc
  rcases hc with rfl | rfl | rfl | rfl | rfl | rfl | rfl | rfl | rfl <;> simp [operators]

/-- An operator of more than one character is one that an equals sign has joined. -/
theorem joined_of_mem_operators {lexeme : List Char} (h : lexeme ∈ operators) :
    lexeme.length ≤ 1 ∨ ∃ c, lexeme = [c, '='] ∧ (c = '=' ∨ c = '!' ∨ c = '<' ∨ c = '>') := by
  simp only [operators, List.mem_cons, List.not_mem_nil, or_false] at h
  rcases h with rfl | rfl | rfl | rfl | rfl | rfl | rfl | rfl | rfl | rfl | rfl | rfl | rfl <;> simp

theorem exists_head_of_mem_operators {lexeme : List Char} (h : lexeme ∈ operators) :
    ∃ c rest, lexeme = c :: rest ∧ isOperatorStart c = true := by
  simp only [operators, List.mem_cons, List.not_mem_nil, or_false] at h
  rcases h with rfl | rfl | rfl | rfl | rfl | rfl | rfl | rfl | rfl | rfl | rfl | rfl | rfl <;> exact ⟨_, _, rfl, rfl⟩

theorem longest_operator {c : Char} (h : isOperatorStart c = true) (rest : List Char) :
    Longest (· ∈ operators) (operator (c :: rest)).1 (c :: rest) where
  front := ⟨_, operator_append (c :: rest)⟩
  shaped := by
    cases rest with
    | nil => exact singleton_mem_operators h
    | cons d rest =>
        rw [operator]
        split_ifs with hlong
        · obtain ⟨rfl, hc⟩ := hlong
          rcases hc with rfl | rfl | rfl | rfl <;> simp [operators]
        · exact singleton_mem_operators h
  longest other hother hoperator := by
    rcases joined_of_mem_operators hoperator with hshort | ⟨d, rfl, hd⟩
    · have := List.length_pos_iff.mpr (operator_ne_nil c rest)
      omega
    · obtain ⟨after, hafter⟩ := hother
      obtain ⟨rfl, rfl⟩ := List.cons.inj hafter
      show 2 ≤ (operator (d :: '=' :: after)).1.length
      rw [operator, if_pos ⟨rfl, hd⟩]
      exact le_refl _

theorem exists_head_of_startsNumber {text : List Char} (h : startsNumber text = true) :
    ∃ c rest, text = c :: rest ∧ (c.isDigit || c == '.') = true := by
  unfold startsNumber at h
  split at h
  · exact ⟨_, _, rfl, rfl⟩
  · exact ⟨_, _, rfl, by rw [h, Bool.true_or]⟩
  · cases h

theorem startsNumber_append {text : List Char} (h : startsNumber text = true) (rest : List Char) :
    startsNumber (text ++ rest) = true := by
  cases text with
  | nil => cases h
  | cons c text =>
      cases text with
      | nil => exact startsNumber_of_isDigit (by simpa [startsNumber] using h) rest
      | cons d text =>
          rw [startsNumber_cons_cons] at h
          rw [List.cons_append, List.cons_append, startsNumber_cons_cons, h]

theorem split_eq {split : List Char × List Char} {lexeme text : List Char} (happend : split.1 ++ split.2 = text)
    (h : split.1 = lexeme) : split = (lexeme, text.drop lexeme.length) := by
  subst happend h
  rw [List.drop_left]

end Lexeme

/-- The mark that closes the mode stands at the front of the text. -/
def Mode.Closes (mode : Mode) (text : List Char) : Prop :=
  ∃ closer : Closer, mode.closer? = some closer ∧ closer.spelling <+: text

/-- What begins a text in a language of logic: the kind and the characters of a token, and the mode behind it. -/
inductive Mode.Begins (mode : Mode) (text : List Char) : TokenKind → List Char → Mode → Prop where
  | closing {closer : Closer} (hcloser : mode.closer? = some closer) (h : closer.spelling <+: text) :
      Begins mode text closer.kind closer.spelling closer.leadsTo
  | word {lexeme : List Char} (hembedding : ¬ ['$', '{'] <+: text) (h : Longest Lexeme.IsWord lexeme text) :
      Begins mode text (Vocabulary.kindOf (String.ofList lexeme)) lexeme mode
  | number {lexeme : List Char} (h : Longest Lexeme.IsNumber lexeme text) : Begins mode text .number lexeme mode
  | operator {lexeme : List Char} (hopen : ¬ mode.Closes text) (hremark : ¬ ['/', '/'] <+: text)
      (h : Longest (· ∈ Lexeme.operators) lexeme text) : Begins mode text .operator lexeme mode
  | punctuation {c : Char} (hopen : ¬ mode.Closes text) (hc : c ∈ ['{', '}', '(', ')', ',', '|', ':', ';'])
      (h : [c] <+: text) : Begins mode text .punctuation [c] mode
  | point (h : ['.'] <+: text) (hdigit : ∀ c, c.isDigit = true → ¬ ['.', c] <+: text) :
      Begins mode text .punctuation ['.'] mode

/-- A fault of a language of logic, but for those within strings: an embedded expression, or a character that begins
nothing. -/
inductive Mode.Refuses (mode : Mode) (text : List Char) : Fault → Prop where
  | embedding (h : ['$', '{'] <+: text) :
      Refuses mode text (if mode = .logic then .embeddingInLogic else .nestedEmbedding)
  | unexpected {c : Char} (hembedding : ¬ ['$', '{'] <+: text) (hc : [c] <+: text)
      (hquote : Lexeme.isQuote c = false) (hnone : ∀ kind lexeme after, ¬ mode.Begins text kind lexeme after) :
      Refuses mode text (.unexpectedCharacter c)

theorem Opener.at?_eq_embedded_iff {text : List Char} : at? text = some .embedded ↔ ['$', '{'] <+: text := by
  constructor
  · intro h
    exact ⟨_, (eq_append_of_at? h).symm⟩
  · rintro ⟨rest, rfl⟩
    exact at?_spelling .embedded rest

namespace Scan

variable {mode : Mode}

theorem closing?_eq_none_iff {text : List Char} : closing? mode text = none ↔ ¬ mode.Closes text := by
  constructor
  · rintro h ⟨closer, hcloser, rest, rfl⟩
    rw [closing?_spelling hcloser] at h
    cases h
  · intro h
    refine Option.eq_none_iff_forall_ne_some.mpr fun scan hscan => h ?_
    obtain ⟨closer, rest, hcloser, rfl, -⟩ := exists_closer hscan
    exact ⟨closer, hcloser, rest, rfl⟩

theorem not_embedding_of_head {c : Char} (h : c ≠ '$') (rest : List Char) :
    Opener.at? (c :: rest) ≠ some .embedded := by
  rw [ne_eq, Opener.at?_eq_embedded_iff, List.cons_prefix_cons]
  rintro ⟨rfl, -⟩
  exact h rfl

theorem inLogic_wordStart {c : Char} {rest : List Char} (hembedding : ¬ ['$', '{'] <+: c :: rest)
    (h : Lexeme.isWordStart c = true) : inLogic mode (c :: rest) = word mode (c :: rest) := by
  have hclosing : closing? mode (c :: rest) = none :=
    closing?_of_head mode ⟨Lexeme.ne_of_part h rfl, Lexeme.ne_of_part h rfl, Lexeme.ne_of_part h rfl,
      Lexeme.ne_of_part h rfl⟩ rest
  have hopener : Opener.at? (c :: rest) ≠ some .embedded := mt Opener.at?_eq_embedded_iff.mp hembedding
  have hquote : Lexeme.isQuote c = false := Lexeme.isQuote_eq_false rfl h
  have hnumber : Lexeme.startsNumber (c :: rest) = false :=
    Lexeme.startsNumber_eq_false (Lexeme.ne_of_part h rfl) (Lexeme.isDigit_eq_false_of_isWordStart h) rest
  have hpunctuation : Lexeme.isPunctuation c = false := Lexeme.contains_eq_false rfl h
  have hoperator : Lexeme.isOperatorStart c = false := Lexeme.contains_eq_false rfl h
  simp only [inLogic_cons hclosing, if_neg hopener, hquote, hnumber, hpunctuation, hoperator, h, if_true, if_false,
    Bool.false_eq_true]

theorem inLogic_startsNumber {text : List Char} (h : Lexeme.startsNumber text = true) :
    inLogic mode text = lexeme mode .number (Lexeme.number text) := by
  obtain ⟨value, hread, -⟩ := (Numeral.decimal_number h).exists_read?
  have hliteral : number mode text = lexeme mode .number (Lexeme.number text) := by
    unfold number
    generalize Lexeme.number text = split at hread
    obtain ⟨literal, after⟩ := split
    exact if_pos (Option.isSome_of_eq_some hread)
  obtain ⟨c, rest, rfl, hc⟩ := Lexeme.exists_head_of_startsNumber h
  have hne (d : Char) (hd : (d.isDigit || d == '.') = false) : c ≠ d :=
    @Lexeme.ne_of_part (fun c => c.isDigit || c == '.') c d hc hd
  have hclosing : closing? mode (c :: rest) = none :=
    closing?_of_head mode ⟨hne _ rfl, hne _ rfl, hne _ rfl, hne _ rfl⟩ rest
  have hquote : Lexeme.isQuote c = false := @Lexeme.isQuote_eq_false (fun c => c.isDigit || c == '.') rfl c hc
  rw [inLogic_cons hclosing, if_neg (not_embedding_of_head (hne _ rfl) rest), hquote, if_neg Bool.false_ne_true,
    if_pos h, hliteral]

theorem inLogic_operatorStart {c : Char} {rest : List Char} (hopen : ¬ mode.Closes (c :: rest))
    (h : Lexeme.isOperatorStart c = true) :
    inLogic mode (c :: rest) = lexeme mode .operator (Lexeme.operator (c :: rest)) := by
  have hopener := not_embedding_of_head (Lexeme.ne_of_part h rfl : c ≠ '$') rest
  have hquote : Lexeme.isQuote c = false := Lexeme.isQuote_eq_false rfl h
  have hnumber : Lexeme.startsNumber (c :: rest) = false :=
    Lexeme.startsNumber_eq_false (Lexeme.ne_of_part h rfl) (Lexeme.isDigit_eq_false_of_isOperatorStart h) rest
  have hpunctuation : Lexeme.isPunctuation c = false := Lexeme.contains_eq_false rfl h
  simp only [inLogic_cons (closing?_eq_none_iff.mpr hopen), if_neg hopener, hquote, hnumber, hpunctuation, h, if_true,
    if_false, Bool.false_eq_true]

theorem inLogic_punctuation {c : Char} {rest : List Char} (hopen : ¬ mode.Closes (c :: rest))
    (hnumber : Lexeme.startsNumber (c :: rest) = false) (h : Lexeme.isPunctuation c = true) :
    inLogic mode (c :: rest) = lexeme mode .punctuation ([c], rest) := by
  have hopener := not_embedding_of_head (Lexeme.ne_of_part h rfl : c ≠ '$') rest
  have hquote : Lexeme.isQuote c = false := Lexeme.isQuote_eq_false rfl h
  simp only [inLogic_cons (closing?_eq_none_iff.mpr hopen), if_neg hopener, hquote, hnumber, h, if_true, if_false,
    Bool.false_eq_true]

theorem inLogic_quote {c : Char} (h : Lexeme.isQuote c = true) (rest : List Char) :
    inLogic mode (c :: rest) = string mode c rest := by
  have hclosing : closing? mode (c :: rest) = none :=
    closing?_of_head mode ⟨Lexeme.ne_of_part h rfl, Lexeme.ne_of_part h rfl, Lexeme.ne_of_part h rfl,
      Lexeme.ne_of_part h rfl⟩ rest
  have hopener := not_embedding_of_head (Lexeme.ne_of_part h rfl : c ≠ '$') rest
  rw [inLogic_cons hclosing, if_neg hopener, if_pos h]

/-- What begins a text is what the scan of logic answers. -/
theorem inLogic_of_begins {text lexeme : List Char} {kind : TokenKind} {after : Mode}
    (h : mode.Begins text kind lexeme after) :
    inLogic mode text = Scan.lexeme after kind (lexeme, text.drop lexeme.length) := by
  cases h with
  | @closing closer hcloser hmark =>
      obtain ⟨rest, rfl⟩ := hmark
      rw [inLogic_of_closing? (closing?_spelling hcloser rest), List.drop_left]
  | word hembedding hword =>
      obtain ⟨c, hhead, hstart⟩ := hword.shaped.starts
      obtain ⟨more, rfl⟩ := List.head?_eq_some_iff.mp hhead
      obtain ⟨rest, rfl⟩ := hword.front
      have hsplit := (@Lexeme.longest_word c (more ++ rest) hstart).eq hword
      rw [List.cons_append] at hembedding ⊢
      rw [inLogic_wordStart hembedding hstart, word, Lexeme.split_eq (Lexeme.word_append _) hsplit]
  | number hnumber =>
      obtain ⟨rest, rfl⟩ := hnumber.front
      have hstarts := Lexeme.startsNumber_append hnumber.shaped.starts rest
      have hsplit := (Lexeme.longest_number hstarts).eq hnumber
      rw [inLogic_startsNumber hstarts, Lexeme.split_eq (Lexeme.number_append _) hsplit]
  | operator hopen hremark hoperator =>
      obtain ⟨c, more, rfl, hc⟩ := Lexeme.exists_head_of_mem_operators hoperator.shaped
      obtain ⟨rest, rfl⟩ := hoperator.front
      have hsplit := (Lexeme.longest_operator hc (more ++ rest)).eq hoperator
      rw [List.cons_append] at hopen ⊢
      rw [inLogic_operatorStart hopen hc, Lexeme.split_eq (Lexeme.operator_append _) hsplit]
  | @punctuation c hopen hc hmark =>
      obtain ⟨rest, rfl⟩ := hmark
      have hmark : Lexeme.isPunctuation c = true := by
        apply List.contains_iff_mem.mpr
        exact List.mem_append_left ['.'] hc
      have hapart : (c.isDigit || c == '.') = false := by
        simpa using List.all_eq_true.mp
          (rfl : (['{', '}', '(', ')', ',', '|', ':', ';'].all fun d => !(d.isDigit || d == '.')) = true) c hc
      rw [Bool.or_eq_false_iff, beq_eq_false_iff_ne] at hapart
      exact inLogic_punctuation hopen (Lexeme.startsNumber_eq_false hapart.2 hapart.1 rest) hmark
  | point hpoint hdigit =>
      obtain ⟨rest, rfl⟩ := hpoint
      have hopen : ¬ mode.Closes ('.' :: rest) := closing?_eq_none_iff.mp (closing?_of_head mode (by decide) rest)
      have hnumber : Lexeme.startsNumber ('.' :: rest) = false := by
        cases rest with
        | nil => rfl
        | cons d rest =>
            rw [Lexeme.startsNumber_cons_cons, if_pos rfl, ← Bool.not_eq_true]
            exact fun hd => hdigit d hd ⟨rest, rfl⟩
      exact inLogic_punctuation hopen hnumber rfl

/-- How the scan of logic answers: with the end of the text, a token that begins it, a string, or a fault. -/
inductive Answers (mode : Mode) : List Char → Scan → Prop where
  | endOfInput : Answers mode [] (endOfInput mode)
  | token {text lexeme : List Char} {kind : TokenKind} {after : Mode} (h : mode.Begins text kind lexeme after) :
      Answers mode text (Scan.lexeme after kind (lexeme, text.drop lexeme.length))
  | string {quote : Char} {rest : List Char} (h : Lexeme.isQuote quote = true) :
      Answers mode (quote :: rest) (string mode quote rest)
  | fault {text : List Char} {fault : Fault} (h : mode.Refuses text fault) :
      Answers mode text ⟨[], text, mode, .error fault⟩

theorem answers_of_begins {text lexeme : List Char} {kind : TokenKind} {after : Mode}
    (h : mode.Begins text kind lexeme after) : Answers mode text (inLogic mode text) := by
  rw [inLogic_of_begins h]
  exact .token h

theorem begins_of_isPunctuation {c : Char} {rest : List Char} (hopen : ¬ mode.Closes (c :: rest))
    (hnumber : Lexeme.startsNumber (c :: rest) = false) (h : Lexeme.isPunctuation c = true) :
    mode.Begins (c :: rest) .punctuation [c] mode := by
  by_cases hpoint : c = '.'
  · subst hpoint
    apply Mode.Begins.point ⟨rest, rfl⟩
    rintro d hd ⟨more, hmore⟩
    obtain rfl : d :: more = rest := (List.cons.inj hmore).2
    rw [Lexeme.startsNumber_cons_cons, if_pos rfl, hd] at hnumber
    cases hnumber
  · apply Mode.Begins.punctuation hopen _ ⟨rest, rfl⟩
    have hc : c ∈ ['{', '}', '(', ')', ',', '|', ':', ';'] ++ ['.'] := List.contains_iff_mem.mp h
    exact (List.mem_append.mp hc).resolve_right (mt List.mem_singleton.mp hpoint)

theorem answers_inLogic {text : List Char} (hremark : ¬ ['/', '/'] <+: text) :
    Answers mode text (inLogic mode text) := by
  by_cases hopen : mode.Closes text
  · obtain ⟨closer, hcloser, hmark⟩ := hopen
    exact answers_of_begins (.closing hcloser hmark)
  have hclosing := closing?_eq_none_iff.mpr hopen
  cases text with
  | nil =>
      simp only [inLogic, hclosing]
      exact .endOfInput
  | cons c rest =>
      by_cases hembedding : ['$', '{'] <+: c :: rest
      · rw [inLogic_cons hclosing, if_pos (Opener.at?_eq_embedded_iff.mpr hembedding)]
        exact .fault (.embedding hembedding)
      by_cases hquote : Lexeme.isQuote c = true
      · rw [inLogic_quote hquote]
        exact .string hquote
      by_cases hnumber : Lexeme.startsNumber (c :: rest) = true
      · exact answers_of_begins (.number (Lexeme.longest_number hnumber))
      by_cases hpunctuation : Lexeme.isPunctuation c = true
      · exact answers_of_begins (begins_of_isPunctuation hopen (Bool.eq_false_iff.mpr hnumber) hpunctuation)
      by_cases hoperator : Lexeme.isOperatorStart c = true
      · exact answers_of_begins (.operator hopen hremark (Lexeme.longest_operator hoperator rest))
      by_cases hword : Lexeme.isWordStart c = true
      · exact answers_of_begins (.word hembedding (Lexeme.longest_word hword))
      have hscan : inLogic mode (c :: rest) = unexpected mode c rest := by
        rw [inLogic_cons hclosing, if_neg (mt Opener.at?_eq_embedded_iff.mp hembedding), if_neg hquote, if_neg hnumber,
          if_neg hpunctuation, if_neg hoperator, if_neg hword]
      rw [hscan]
      apply Answers.fault
      apply Mode.Refuses.unexpected hembedding ⟨rest, rfl⟩ (Bool.eq_false_iff.mpr hquote)
      intro kind lexeme after hbegins
      have houtcome := congrArg Scan.outcome (inLogic_of_begins hbegins)
      rw [hscan] at houtcome
      cases houtcome

theorem outcome_string (quote : Char) (text : List Char) :
    (∃ word, (string mode quote text).outcome = .ok (.string, word)) ∨
      (string mode quote text).outcome = .error .unterminatedString := by
  unfold string
  generalize Lexeme.stringBody quote text = split
  obtain ⟨body, after⟩ := split
  dsimp only
  split
  · exact .inr rfl
  · split_ifs
    · exact .inl ⟨_, rfl⟩
    · exact .inr rfl

end Scan

theorem Mode.Begins.kind_ne {mode after : Mode} {text lexeme : List Char} {kind : TokenKind}
    (h : mode.Begins text kind lexeme after) : kind ≠ .string ∧ kind ≠ .endOfInput := by
  cases h with
  | closing hcloser =>
      cases mode <;> cases hcloser <;> exact ⟨TokenKind.noConfusion, TokenKind.noConfusion⟩
  | word =>
      unfold Vocabulary.kindOf
      split_ifs <;> exact ⟨TokenKind.noConfusion, TokenKind.noConfusion⟩
  | _ => exact ⟨TokenKind.noConfusion, TokenKind.noConfusion⟩

namespace Scan

variable {mode : Mode} {text : List Char}

/-- A quote stands at the front of the text. -/
def Quoted (text : List Char) : Prop := ∃ quote ∈ text.head?, Lexeme.isQuote quote = true

theorem Answers.of_ok {scan : Scan} (h : Answers mode text scan) {kind : TokenKind} {word : String}
    (houtcome : scan.outcome = .ok (kind, word)) :
    (kind = .endOfInput ∧ text = []) ∨ (kind = .string ∧ Quoted text) ∨
      mode.Begins text kind word.toList scan.mode := by
  cases h with
  | endOfInput =>
      obtain ⟨rfl, -⟩ := Prod.mk.inj (Except.ok.inj houtcome)
      exact .inl ⟨rfl, rfl⟩
  | token hbegins =>
      obtain ⟨rfl, rfl⟩ := Prod.mk.inj (Except.ok.inj houtcome)
      rw [String.toList_ofList]
      exact .inr (.inr hbegins)
  | @string quote rest hquote =>
      rcases @outcome_string mode quote rest with ⟨other, hother⟩ | hother
      · rw [hother] at houtcome
        obtain ⟨rfl, -⟩ := Prod.mk.inj (Except.ok.inj houtcome)
        exact .inr (.inl ⟨rfl, quote, rfl, hquote⟩)
      · rw [hother] at houtcome
        cases houtcome
  | fault => cases houtcome

theorem Answers.of_error {scan : Scan} (h : Answers mode text scan) {fault : Fault}
    (houtcome : scan.outcome = .error fault) :
    (fault = .unterminatedString ∧ Quoted text) ∨ mode.Refuses text fault := by
  cases h with
  | endOfInput => cases houtcome
  | token => cases houtcome
  | @string quote rest hquote =>
      rcases @outcome_string mode quote rest with ⟨other, hother⟩ | hother
      · rw [hother] at houtcome
        cases houtcome
      · rw [hother] at houtcome
        exact .inl ⟨(Except.error.inj houtcome).symm, quote, rfl, hquote⟩
  | fault hrefuses =>
      obtain rfl := Except.error.inj houtcome
      exact .inr hrefuses

theorem begins_iff (hremark : ¬ ['/', '/'] <+: text) {kind : TokenKind} {lexeme : List Char} {after : Mode} :
    mode.Begins text kind lexeme after ↔ kind ≠ .string ∧ kind ≠ .endOfInput ∧
      (inLogic mode text).outcome = .ok (kind, .ofList lexeme) ∧ (inLogic mode text).mode = after := by
  constructor
  · intro h
    rw [inLogic_of_begins h]
    exact ⟨h.kind_ne.1, h.kind_ne.2, rfl, rfl⟩
  · rintro ⟨hstring, hend, houtcome, rfl⟩
    rcases (answers_inLogic hremark).of_ok houtcome with ⟨hkind, -⟩ | ⟨hkind, -⟩ | h
    · exact absurd hkind hend
    · exact absurd hkind hstring
    · rwa [String.toList_ofList] at h

theorem outcome_of_embedding (h : ['$', '{'] <+: text) :
    (inLogic mode text).outcome = .error (if mode = .logic then .embeddingInLogic else .nestedEmbedding) := by
  obtain ⟨rest, rfl⟩ := h
  have hopener : Opener.at? ('$' :: '{' :: rest) = some .embedded := rfl
  show (inLogic mode ('$' :: '{' :: rest)).outcome = _
  rw [inLogic_cons (closing?_of_head mode (by decide) _), if_pos hopener]

theorem not_quoted_of_head {c : Char} (hc : [c] <+: text) (hquote : Lexeme.isQuote c = false) : ¬ Quoted text := by
  obtain ⟨rest, rfl⟩ := hc
  rintro ⟨quote, hhead, h⟩
  obtain rfl : c = quote := Option.some.inj hhead
  rw [h] at hquote
  cases hquote

/-- Where nothing begins the text, its first character is what is refused. -/
theorem outcome_of_unexpected (hremark : ¬ ['/', '/'] <+: text) {c : Char} (hembedding : ¬ ['$', '{'] <+: text)
    (hc : [c] <+: text) (hquote : Lexeme.isQuote c = false)
    (hnone : ∀ kind lexeme after, ¬ mode.Begins text kind lexeme after) :
    (inLogic mode text).outcome = .error (.unexpectedCharacter c) := by
  have hquoted := not_quoted_of_head hc hquote
  obtain ⟨rest, rfl⟩ := hc
  cases houtcome : (inLogic mode ([c] ++ rest)).outcome with
  | ok token =>
      rcases (answers_inLogic hremark).of_ok houtcome with ⟨-, hnil⟩ | ⟨-, h⟩ | h
      · cases hnil
      · exact absurd h hquoted
      · exact absurd h (hnone _ _ _)
  | error fault =>
      rcases (answers_inLogic hremark).of_error houtcome with ⟨-, h⟩ | h
      · exact absurd h hquoted
      · cases h with
        | embedding h => exact absurd h hembedding
        | @unexpected d _ hd =>
            obtain ⟨more, hmore⟩ := hd
            rw [(List.cons.inj hmore).1]

theorem refuses_iff (hremark : ¬ ['/', '/'] <+: text) {fault : Fault} :
    mode.Refuses text fault ↔ fault ≠ .unterminatedString ∧ (inLogic mode text).outcome = .error fault := by
  constructor
  · intro h
    cases h with
    | embedding hembedding =>
        refine ⟨?_, outcome_of_embedding hembedding⟩
        split_ifs <;> exact Fault.noConfusion
    | unexpected hembedding hc hquote hnone =>
        exact ⟨Fault.noConfusion, outcome_of_unexpected hremark hembedding hc hquote hnone⟩
  · rintro ⟨hstring, houtcome⟩
    exact ((answers_inLogic hremark).of_error houtcome).resolve_left fun h => hstring h.1

theorem quoted_iff (hremark : ¬ ['/', '/'] <+: text) : Quoted text ↔
    (∃ word, (inLogic mode text).outcome = .ok (.string, word)) ∨
      (inLogic mode text).outcome = .error .unterminatedString := by
  constructor
  · rintro ⟨quote, hhead, hquote⟩
    obtain ⟨rest, rfl⟩ := List.head?_eq_some_iff.mp hhead
    rw [inLogic_quote hquote]
    exact outcome_string quote rest
  · rintro (⟨word, houtcome⟩ | houtcome)
    · rcases (answers_inLogic hremark).of_ok houtcome with ⟨hkind, -⟩ | ⟨-, hquoted⟩ | h
      · cases hkind
      · exact hquoted
      · exact absurd rfl h.kind_ne.1
    · rcases (answers_inLogic hremark).of_error houtcome with ⟨-, hquoted⟩ | h
      · exact hquoted
      · exact absurd rfl ((refuses_iff hremark).mp h).1

theorem eq_nil_iff (hremark : ¬ ['/', '/'] <+: text) :
    text = [] ↔ ∃ word, (inLogic mode text).outcome = .ok (.endOfInput, word) := by
  constructor
  · rintro rfl
    have hopen : ¬ mode.Closes [] := by
      rintro ⟨closer, hcloser, h⟩
      rw [List.prefix_nil] at h
      cases mode <;> cases hcloser <;> cases h
    simp only [inLogic, closing?_eq_none_iff.mpr hopen]
    exact ⟨"", rfl⟩
  · rintro ⟨word, houtcome⟩
    rcases (answers_inLogic hremark).of_ok houtcome with ⟨-, hnil⟩ | ⟨hkind, -⟩ | h
    · exact hnil
    · cases hkind
    · exact absurd rfl h.kind_ne.2

theorem kind?_item_iff {scan : Scan} {position : Position} {kind : TokenKind} :
    (scan.item position).kind? = some kind ↔ ∃ word, scan.outcome = .ok (kind, word) := by
  unfold item
  split
  next other word houtcome =>
    simp only [Item.kind?, houtcome, Option.some.injEq, Except.ok.injEq, Prod.mk.injEq, exists_and_left, exists_eq',
      and_true]
  next fault houtcome => simp only [Item.kind?, houtcome, reduceCtorEq, exists_false]

theorem item_eq_error_iff {scan : Scan} {position : Position} {diagnostic : Diagnostic} :
    scan.item position = .error diagnostic ↔
      scan.outcome = .error diagnostic.fault ∧ diagnostic.position = position := by
  constructor
  · intro h
    have houtcome := item_eq_error h
    unfold item at h
    rw [houtcome] at h
    exact ⟨houtcome, (congrArg Diagnostic.position (Except.error.inj h)).symm⟩
  · rintro ⟨houtcome, rfl⟩
    unfold item
    rw [houtcome]

end Scan

/-- The front of a text of logic, where neither a blank nor a remark may be passed. -/
theorem Mode.Stops.not_remark {mode : Mode} {text : List Char} (h : mode.Stops text)
    (hlogical : mode.isLogical = true) : ¬ ['/', '/'] <+: text := by
  rw [← Lexeme.startsRemark_iff, (Mode.stops_iff.mp h).2 hlogical]
  exact Bool.false_ne_true

theorem Mode.scan_of_isLogical {mode : Mode} (h : mode.isLogical = true) (text : List Char) :
    mode.scan text = Scan.inLogic mode text := by
  cases mode with
  | embedded resume => rfl
  | logic => rfl
  | _ => cases h

/-- A lexer in a language of logic yields what begins the text behind spaces and remarks: its words, numbers and
operators are the longest ones there. It finds fault with an embedded expression, or where nothing begins the text. -/
theorem Lexer.next_inLogic {lexer : Lexer} (h : lexer.mode.isLogical = true) :
    ∃ (gap : List Char) (start : Cursor), Skips lexer.mode lexer.cursor start gap ∧
      (start.rest = [] ↔ lexer.next.1.kind? = some .endOfInput) ∧
      (Scan.Quoted start.rest ↔
        lexer.next.1.kind? = some .string ∨ lexer.next.1 = .error ⟨.unterminatedString, start.position⟩) ∧
      (∀ kind lexeme after, lexer.mode.Begins start.rest kind lexeme after ↔ kind ≠ .string ∧ kind ≠ .endOfInput ∧
        lexer.next = (.ok ⟨kind, .ofList lexeme, start.position⟩,
          ⟨⟨start.rest.drop lexeme.length, start.position.past lexeme⟩, after, lexer.done⟩)) ∧
      ∀ diagnostic : Diagnostic, lexer.next.1 = .error diagnostic ∧ diagnostic.fault ≠ .unterminatedString ↔
        lexer.mode.Refuses start.rest diagnostic.fault ∧ diagnostic.position = start.position := by
  obtain ⟨gap, hskips⟩ := lexer.mode.exists_skips lexer.cursor
  generalize hstart : lexer.mode.skip lexer.cursor = start at hskips
  have hnext := Lexer.next_of_scan hstart (lexer.mode.scan_of_isLogical h start.rest)
  have hremark := hskips.stops.not_remark h
  refine ⟨gap, start, hskips, ?_, ?_, fun kind lexeme after => ?_, fun diagnostic => ?_⟩
  · rw [@Scan.eq_nil_iff lexer.mode start.rest hremark, hnext, Scan.kind?_item_iff]
  · rw [@Scan.quoted_iff lexer.mode start.rest hremark, hnext, Scan.kind?_item_iff, Scan.item_eq_error_iff]
    simp only [and_true]
  · constructor
    · intro hbegins
      rw [hnext, Scan.inLogic_of_begins hbegins]
      exact ⟨hbegins.kind_ne.1, hbegins.kind_ne.2, rfl⟩
    · rintro ⟨hstring, hend, hstep⟩
      rw [hnext] at hstep
      have hmode := congrArg (·.2.mode) hstep
      exact (Scan.begins_iff hremark).mpr ⟨hstring, hend, Scan.item_eq_ok (congrArg Prod.fst hstep), hmode⟩
  · rw [Scan.refuses_iff hremark, hnext, Scan.item_eq_error_iff]
    tauto

theorem Lexer.next_inLogic_comparison :
    let lexer : Lexer := ⟨⟨"// note\n <=.5 %>".toList, .origin⟩, .logic, false⟩
    lexer.mode.isLogical = true ∧ lexer.next.1 = .ok ⟨.operator, "<=", ⟨2, 2⟩⟩ ∧
      ∃ (gap : List Char) (start : Cursor), Skips lexer.mode lexer.cursor start gap ∧ start.rest ≠ [] ∧
        ¬ Scan.Quoted start.rest ∧ ∀ fault, ¬ lexer.mode.Refuses start.rest fault := by
  intro lexer
  have hitem : lexer.next.1 = .ok ⟨.operator, "<=", ⟨2, 2⟩⟩ := by cbv
  obtain ⟨gap, start, hskips, hend, hquoted, -, hrefuses⟩ :=
    Lexer.next_inLogic (show lexer.mode.isLogical = true from rfl)
  rw [hitem] at hend hquoted hrefuses
  refine ⟨rfl, hitem, gap, start, hskips, ?_, ?_, fun fault hfault => ?_⟩
  · intro hnil
    cases hend.mp hnil
  · intro h
    rcases hquoted.mp h with hkind | herror
    · cases hkind
    · cases herror
  · cases ((hrefuses ⟨fault, start.position⟩).mpr ⟨hfault, rfl⟩).1

end Questionnaire
