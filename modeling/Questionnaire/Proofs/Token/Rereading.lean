import Mathlib.Data.List.DropRight
import Questionnaire.Proofs.Token.Delimiters
import Questionnaire.Proofs.Token.Layout

/-! A token on a line of its own. Most are written as their text; an attribute gets its mark back, and a string its
quotes and escapes. The line feed keeps the token apart from what comes next in every mode: no lexeme goes on behind
it, no mark has one in it, and it may be passed before every token. The main statement says that the scan of the mode
answers the token again. -/

namespace Questionnaire

theorem exists_cons_of_append {front back rest : List Char} {c : Char} (h : front ++ back = c :: rest)
    (hne : front ≠ []) : ∃ more, front = c :: more := by
  rcases List.append_eq_cons_iff.mp h with ⟨hnil, -⟩ | ⟨more, hmore, -⟩
  · exact absurd hnil hne
  · exact ⟨more, hmore⟩

namespace Lexeme

/-- How a character is written between double quotes. -/
def escape (c : Char) : List Char :=
  if c = '\\' then ['\\', '\\']
  else if c = '"' then ['\\', '"']
  else if c = '\n' then ['\\', 'n']
  else if c = '\t' then ['\\', 't']
  else if c = '\r' then ['\\', 'r']
  else [c]

def encoded (text : List Char) : List Char := text.flatMap escape

theorem escape_cases (c : Char) :
    (escape c = [c] ∧ c ≠ '\\' ∧ c ≠ '"' ∧ c ≠ '\n') ∨ ∃ d, escape c = ['\\', d] ∧ escaped d = c := by
  unfold escape
  split_ifs with hescape hquote hfeed htab hreturn
  · exact .inr ⟨'\\', rfl, by rw [hescape]; rfl⟩
  · exact .inr ⟨'"', rfl, by rw [hquote]; rfl⟩
  · exact .inr ⟨'n', rfl, hfeed.symm⟩
  · exact .inr ⟨'t', rfl, htab.symm⟩
  · exact .inr ⟨'r', rfl, hreturn.symm⟩
  · exact .inl ⟨rfl, hescape, hquote, hfeed⟩

theorem decoded_encoded (text : List Char) : decoded (encoded text) = text := by
  induction text with
  | nil => rfl
  | cons c text ih =>
      rw [encoded, List.flatMap_cons, ← encoded]
      rcases escape_cases c with ⟨hplain, hescape, -⟩ | ⟨d, hescaped, hd⟩
      · rw [hplain, List.singleton_append, decoded_cons_of_ne hescape, ih]
      · rw [hescaped, List.cons_append, List.singleton_append, decoded, if_pos rfl, hd, ih]

theorem stringBody_plain {quote c : Char} (hline : c ≠ '\n') (hquote : c ≠ quote) (hescape : c ≠ '\\')
    (text : List Char) :
    stringBody quote (c :: text) = (c :: (stringBody quote text).1, (stringBody quote text).2) := by
  have hstop : ¬(c = '\n' ∨ c = quote) := not_or.mpr ⟨hline, hquote⟩
  cases text with
  | nil => simp only [stringBody, if_neg hstop]
  | cons d text => rw [stringBody, if_neg hstop, if_neg hescape]

theorem stringBody_escape {quote : Char} (hquote : '\\' ≠ quote) (d : Char) (text : List Char) :
    stringBody quote ('\\' :: d :: text) = ('\\' :: d :: (stringBody quote text).1, (stringBody quote text).2) := by
  have hstop : ¬('\\' = '\n' ∨ '\\' = quote) := not_or.mpr ⟨by decide, hquote⟩
  rw [stringBody, if_neg hstop, if_pos rfl]

theorem stringBody_quote (quote : Char) (rest : List Char) :
    stringBody quote (quote :: rest) = ([], quote :: rest) := by
  cases rest with
  | nil => rw [stringBody, if_pos (.inr rfl)]
  | cons d rest => rw [stringBody, if_pos (.inr rfl)]

theorem stringBody_encoded (text rest : List Char) :
    stringBody '"' (encoded text ++ '"' :: rest) = (encoded text, '"' :: rest) := by
  induction text with
  | nil => exact stringBody_quote '"' rest
  | cons c text ih =>
      rw [encoded, List.flatMap_cons, ← encoded]
      rcases escape_cases c with ⟨hplain, hescape, hquote, hline⟩ | ⟨d, hescaped, -⟩
      · rw [hplain, List.singleton_append, List.cons_append, stringBody_plain hline hquote hescape, ih]
      · rw [hescaped, List.cons_append, List.singleton_append, List.cons_append, List.cons_append,
          stringBody_escape (by decide), ih]

theorem takeWhile_again {part : Char → Bool} (hpart : part '\n' = false) (text rest : List Char) :
    (text.takeWhile part ++ '\n' :: rest).takeWhile part = text.takeWhile part := by
  rw [List.takeWhile_append_of_pos fun c hc => List.mem_takeWhile_imp hc, List.takeWhile_cons_of_neg (by simp [hpart]),
    List.append_nil]

theorem dropWhile_again {part : Char → Bool} (hpart : part '\n' = false) (text rest : List Char) :
    (text.takeWhile part ++ '\n' :: rest).dropWhile part = '\n' :: rest := by
  rw [List.dropWhile_append_of_pos fun c hc => List.mem_takeWhile_imp hc, List.dropWhile_cons_of_neg (by simp [hpart])]

theorem word_again (text rest : List Char) : word ((word text).1 ++ '\n' :: rest) = ((word text).1, '\n' :: rest) := by
  simp only [word, takeWhile_again (by decide : isWordPart '\n' = false),
    dropWhile_again (by decide : isWordPart '\n' = false)]

theorem number_again (text rest : List Char) :
    number ((number text).1 ++ '\n' :: rest) = ((number text).1, '\n' :: rest) := by
  have hfeed : Char.isDigit '\n' = false := by decide
  cases hpoint : text.dropWhile Char.isDigit with
  | nil => simp [number, hpoint, takeWhile_again hfeed, dropWhile_again hfeed]
  | cons c tail =>
      by_cases hc : c = '.'
      · subst hc
        have hwhole : ∀ after : List Char, (text.takeWhile Char.isDigit ++ '.' :: after).takeWhile Char.isDigit
            = text.takeWhile Char.isDigit := by
          intro after
          rw [List.takeWhile_append_of_pos fun c hc => List.mem_takeWhile_imp hc]
          simp [Char.isDigit]
        have hrest : ∀ after : List Char, (text.takeWhile Char.isDigit ++ '.' :: after).dropWhile Char.isDigit
            = '.' :: after := by
          intro after
          rw [List.dropWhile_append_of_pos fun c hc => List.mem_takeWhile_imp hc]
          simp [Char.isDigit]
        simp [number, hpoint, hwhole, hrest, takeWhile_again hfeed, dropWhile_again hfeed]
      · simp [number, hpoint, hc, takeWhile_again hfeed, dropWhile_again hfeed]

theorem startsNumber_cons_cons (c d : Char) (text : List Char) :
    startsNumber (c :: d :: text) = if c = '.' then d.isDigit else c.isDigit := by
  by_cases hc : c = '.'
  · rw [if_pos hc, hc, startsNumber]
  · rw [if_neg hc, startsNumber]
    simpa using hc

theorem startsNumber_of_isDigit {c : Char} (h : c.isDigit = true) (rest : List Char) :
    startsNumber (c :: rest) = true := by
  cases rest with
  | nil => simpa [startsNumber] using h
  | cons d rest =>
      rw [startsNumber_cons_cons, if_neg, h]
      rintro rfl
      cases h

theorem startsNumber_number {text : List Char} (h : startsNumber text = true) (rest : List Char) :
    startsNumber ((number text).1 ++ rest) = true := by
  have happend := number_append text
  have hne := number_ne_nil h
  unfold startsNumber at h
  split at h
  next d tail =>
    have hliteral : (number ('.' :: d :: tail)).1 = '.' :: d :: tail.takeWhile Char.isDigit := by
      rw [← List.takeWhile_cons_of_pos h]
      simp [number, Char.isDigit]
    rw [hliteral, List.cons_append, List.cons_append, startsNumber_cons_cons, if_pos rfl, h]
  next c tail hpoint =>
    obtain ⟨more, hmore⟩ := exists_cons_of_append happend hne
    rw [hmore]
    exact startsNumber_of_isDigit h _
  next => cases h

theorem operator_again (c : Char) (text rest : List Char) :
    operator ((operator (c :: text)).1 ++ '\n' :: rest) = ((operator (c :: text)).1, '\n' :: rest) := by
  cases text with
  | nil => simp [operator]
  | cons d text =>
      by_cases hlong : d = '=' ∧ (c = '=' ∨ c = '!' ∨ c = '<' ∨ c = '>')
      · simp only [operator, if_pos hlong, List.cons_append, List.nil_append]
      · simp [operator, if_neg hlong]

end Lexeme

namespace Text

theorem trimEnd_concat {c : Char} (h : isBlank c = true) (text : List Char) :
    trimEnd (text ++ [c]) = trimEnd text := by
  rw [trimEnd, List.reverse_concat, List.dropWhile_cons_of_pos h, trimEnd]

theorem trimEnd_trimEnd (text : List Char) : trimEnd (trimEnd text) = trimEnd text := by
  rw [trimEnd, trimEnd, List.reverse_reverse, List.dropWhile_idempotent]

end Text

/-- How a token of the kind and the text is written. -/
def TokenKind.written (kind : TokenKind) (text : String) : List Char :=
  match kind with
  | .attributeKeyword => '@' :: text.toList
  | .string => '"' :: Lexeme.encoded text.toList ++ ['"']
  | _ => text.toList

theorem TokenKind.written_ofList {kind : TokenKind} (h : kind.isVerbatim = true) (lexeme : List Char) :
    kind.written (String.ofList lexeme) = lexeme := by
  cases kind <;> simp_all [isVerbatim, written]

/-- A mark without a line feed that begins a line begins its lexeme. -/
theorem isPrefix_of_line {mark lexeme rest : List Char} (hmark : '\n' ∉ mark)
    (h : mark <+: lexeme ++ '\n' :: rest) : mark <+: lexeme := by
  obtain ⟨after, hafter⟩ := h
  rcases List.append_eq_append_iff.mp hafter with ⟨more, hlexeme, -⟩ | ⟨more, hlong, hline⟩
  · exact ⟨more, hlexeme.symm⟩
  · cases more with
    | nil => exact ⟨[], by rw [hlong]; simp⟩
    | cons c more =>
        obtain ⟨rfl, -⟩ := List.cons.inj hline
        exact absurd (by simp [hlong]) hmark

namespace Opener

theorem at?_spelling (opener : Opener) (rest : List Char) : at? (opener.spelling ++ rest) = some opener := by
  cases opener <;> rfl

theorem at?_again {lexeme rest : List Char} {opener : Opener} (h : at? (lexeme ++ '\n' :: rest) = some opener)
    (after : List Char) : at? (lexeme ++ after) = some opener := by
  have hmark : opener.spelling <+: lexeme :=
    isPrefix_of_line (by cases opener <;> decide) ⟨_, (eq_append_of_at? h).symm⟩
  obtain ⟨more, rfl⟩ := hmark
  rw [List.append_assoc]
  exact at?_spelling opener _

theorem at?_again_ne {lexeme after : List Char} {opener : Opener} (h : at? (lexeme ++ after) ≠ some opener)
    (rest : List Char) : at? (lexeme ++ '\n' :: rest) ≠ some opener :=
  fun hagain => h (at?_again hagain after)

end Opener

namespace Lexeme

theorem startsRemark_iff {text : List Char} : startsRemark text = true ↔ ['/', '/'] <+: text := by
  unfold startsRemark
  split
  next rest => exact iff_of_true rfl ⟨rest, rfl⟩
  next hslashes =>
    refine iff_of_false (by simp) ?_
    rintro ⟨rest, rfl⟩
    exact hslashes rest rfl

theorem startsRemark_again {lexeme rest : List Char} (h : startsRemark (lexeme ++ '\n' :: rest) = true)
    (after : List Char) : startsRemark (lexeme ++ after) = true := by
  rw [startsRemark_iff] at h ⊢
  exact (isPrefix_of_line (by decide) h).trans (List.prefix_append _ _)

theorem startsNumber_again {c : Char} {more rest : List Char} (h : startsNumber (c :: more ++ '\n' :: rest) = true)
    (after : List Char) : startsNumber (c :: more ++ after) = true := by
  cases more with
  | cons d more =>
      rw [List.cons_append, List.cons_append, startsNumber_cons_cons] at h ⊢
      exact h
  | nil =>
      rw [List.cons_append, List.nil_append, startsNumber_cons_cons] at h
      split_ifs at h
      · cases h
      · exact startsNumber_of_isDigit h after

end Lexeme

/-- The blanks of the mode. -/
def Mode.isBlank : Mode → Char → Bool
  | .text => Text.isBlank
  | _ => Text.isSpace

theorem Mode.isBlank_lineFeed (mode : Mode) : mode.isBlank '\n' = true := by
  cases mode <;> rfl

theorem Mode.isBlank_quote (mode : Mode) : mode.isBlank '"' = false := by
  cases mode <;> rfl

theorem Mode.stops_iff_blank {mode : Mode} {blank : Char → Bool} {text : List Char}
    (hpasses : ∀ gap after, mode.Passes gap after ↔ ∀ c ∈ gap, blank c = true) :
    mode.Stops text ↔ ∀ c ∈ text.head?, blank c = false := by
  refine ⟨fun h c hc => ?_, stops_of_head fun gap after => (hpasses gap after).mp⟩
  obtain ⟨tail, rfl⟩ := List.head?_eq_some_iff.mp hc
  by_contra hblank
  have := h [c] tail rfl ((hpasses _ _).mpr (by simpa using hblank))
  cases this

theorem Mode.stops_iff_remarks {mode : Mode} {text : List Char}
    (hpasses : ∀ gap after, mode.Passes gap after ↔ Remarks after gap) :
    mode.Stops text ↔ (∀ c ∈ text.head?, Text.isSpace c = false) ∧ Lexeme.startsRemark text = false := by
  constructor
  · intro h
    constructor
    · intro c hc
      obtain ⟨tail, rfl⟩ := List.head?_eq_some_iff.mp hc
      by_contra hspace
      have := h [c] tail rfl ((hpasses _ _).mpr (.space (by simpa using hspace) .nil))
      cases this
    · by_contra hremark
      have hstart : Lexeme.startsRemark (Cursor.mk text .origin).rest = true := by simpa using hremark
      obtain ⟨line, hrest, hline, hend, -⟩ := Cursor.exists_remark hstart
      have := h _ _ (by simpa using hrest) ((hpasses _ _).mpr (.remark hline (by simpa using hend) .nil))
      simp at this
  · rintro ⟨hspace, hremark⟩ gap after rfl hgap
    exact ((hpasses _ _).mp hgap).eq_nil hspace hremark

/-- Nothing may be passed before a text that begins neither with a blank nor, in logic, with a remark. -/
theorem Mode.stops_iff {mode : Mode} {text : List Char} :
    mode.Stops text ↔ (∀ c ∈ text.head?, mode.isBlank c = false) ∧
      (mode.isLogical = true → Lexeme.startsRemark text = false) := by
  cases mode with
  | text => simpa [isLogical, isBlank] using stops_iff_blank fun _ _ => Iff.rfl
  | questionAttributes => simpa [isLogical, isBlank] using stops_iff_blank fun _ _ => Iff.rfl
  | optionAttributes => simpa [isLogical, isBlank] using stops_iff_blank fun _ _ => Iff.rfl
  | embedded => simpa [isLogical, isBlank] using stops_iff_remarks fun _ _ => Iff.rfl
  | logic => simpa [isLogical, isBlank] using stops_iff_remarks fun _ _ => Iff.rfl

/-- What may not be passed in front of a lexeme may not be passed in front of its line. -/
theorem Mode.Stops.again {mode : Mode} {c : Char} {more after : List Char} (h : mode.Stops (c :: more ++ after))
    (rest : List Char) : mode.Stops (c :: more ++ '\n' :: rest) := by
  obtain ⟨hblank, hremark⟩ := stops_iff.mp h
  refine stops_iff.mpr ⟨hblank, fun hlogical => ?_⟩
  refine Bool.eq_false_iff.mpr fun hagain => ?_
  rw [Lexeme.startsRemark_again hagain after] at hremark
  cases hremark hlogical

theorem Mode.stops_quote (mode : Mode) (rest : List Char) : mode.Stops ('"' :: rest) := by
  refine stops_iff.mpr ⟨fun c hc => ?_, fun _ => ?_⟩
  · cases hc
    exact mode.isBlank_quote
  · cases rest <;> rfl

theorem dropWhile_append_of_head {blank : Char → Bool} {gap text : List Char} (hgap : ∀ c ∈ gap, blank c = true)
    (h : ∀ c ∈ text.head?, blank c = false) : (gap ++ text).dropWhile blank = text := by
  rw [List.dropWhile_append_of_pos hgap]
  cases text with
  | nil => rfl
  | cons c text => exact List.dropWhile_cons_of_neg (by simp [h c rfl])

/-- Line feeds are passed in every mode. -/
theorem Mode.rest_skip {mode : Mode} {gap text : List Char} (hgap : ∀ c ∈ gap, c = '\n') (h : mode.Stops text)
    (position : Position) : (mode.skip ⟨gap ++ text, position⟩).rest = text := by
  obtain ⟨hblank, hremark⟩ := stops_iff.mp h
  have hfeed : ∀ c ∈ gap, mode.isBlank c = true := by
    intro c hc
    rw [hgap c hc]
    exact mode.isBlank_lineFeed
  have hspaces := dropWhile_append_of_head hfeed hblank
  have hremarks : (gap ++ text).dropWhile Text.isSpace = text → Lexeme.startsRemark text = false →
      (Cursor.skipRemarks ⟨gap ++ text, position⟩).rest = text := by
    intro hrest hstart
    rw [Cursor.skipRemarks, dif_neg (by simp [Cursor.skipWhile, hrest, hstart])]
    exact hrest
  cases mode with
  | text => exact hspaces
  | questionAttributes => exact hspaces
  | optionAttributes => exact hspaces
  | embedded => exact hremarks hspaces (hremark rfl)
  | logic => exact hremarks hspaces (hremark rfl)

namespace Scan

theorem textRun_again {text word rest : List Char} (hword : word <+: (textRun text).1)
    (hrest : textRun rest = ([], rest)) : textRun (word ++ '\n' :: rest) = (word ++ ['\n'], rest) := by
  induction word generalizing text with
  | nil =>
      rw [List.nil_append, textRun, hrest]
      rfl
  | cons c word ih =>
      cases text with
      | nil => simp [textRun] at hword
      | cons d text =>
          cases hopener : Opener.at? (d :: text) with
          | some opener => simp [textRun, hopener] at hword
          | none =>
              obtain ⟨rfl, hrun⟩ : c = d ∧ word <+: (textRun text).1 := by
                simpa [textRun, hopener] using hword
              have hagain : Opener.at? (c :: word ++ '\n' :: rest) = none := by
                refine Option.eq_none_iff_forall_ne_some.mpr fun opener hsome => ?_
                obtain ⟨more, hmore⟩ := hrun
                have := Opener.at?_again hsome (more ++ (textRun text).2)
                rw [List.cons_append, ← List.append_assoc, hmore, textRun_append, hopener] at this
                cases this
              rw [List.cons_append] at hagain
              rw [List.cons_append, textRun, hagain, ih hrun]
              rfl

/-- Where the scan answers a token, that token on a line of its own is answered again, with the mode that follows
it, and nothing but line feeds is left in front of the next line. Free text ends only where a mark comes next. -/
def Rereads (scan : Scan) (read : List Char → Scan) : Prop :=
  ∀ kind word rest, scan.outcome = .ok (kind, word) → kind ≠ .endOfInput →
    (kind = .textRun → textRun rest = ([], rest)) →
    (read (kind.written word ++ '\n' :: rest)).outcome = .ok (kind, word) ∧
      (read (kind.written word ++ '\n' :: rest)).mode = scan.mode ∧
      ∃ gap, (∀ c ∈ gap, c = '\n') ∧ (read (kind.written word ++ '\n' :: rest)).rest = gap ++ rest

variable {mode : Mode} {read : List Char → Scan}

theorem rereads_error {scan : Scan} {fault : Fault} (h : scan.outcome = .error fault) : scan.Rereads read := by
  intro kind word rest houtcome
  rw [h] at houtcome
  cases houtcome

theorem rereads_endOfInput : (endOfInput mode).Rereads read := by
  intro kind word rest houtcome hkind
  cases houtcome
  exact absurd rfl hkind

theorem rereads_ok {taken left : List Char} {kind : TokenKind} {word : String}
    (hread : ∀ rest, read (kind.written word ++ '\n' :: rest) =
      ⟨kind.written word, '\n' :: rest, mode, .ok (kind, word)⟩) :
    (Scan.mk taken left mode (.ok (kind, word))).Rereads read := by
  rintro kind word rest ⟨⟩ - -
  rw [hread]
  exact ⟨rfl, rfl, ['\n'], by simp, rfl⟩

theorem rereads_lexeme {kind : TokenKind} {split : List Char × List Char} (hkind : kind.isVerbatim = true)
    (hread : ∀ rest, read (split.1 ++ '\n' :: rest) = lexeme mode kind (split.1, '\n' :: rest)) :
    (lexeme mode kind split).Rereads read := by
  refine rereads_ok fun rest => ?_
  rw [TokenKind.written_ofList hkind]
  exact hread rest

theorem closing?_spelling {closer : Closer} (h : mode.closer? = some closer) (rest : List Char) :
    closing? mode (closer.spelling ++ rest) = some (lexeme closer.leadsTo closer.kind (closer.spelling, rest)) := by
  rw [closing?, h]
  simp

theorem exists_closer {text : List Char} {scan : Scan} (h : closing? mode text = some scan) :
    ∃ closer rest, mode.closer? = some closer ∧ text = closer.spelling ++ rest ∧
      scan = lexeme closer.leadsTo closer.kind (closer.spelling, rest) := by
  unfold closing? at h
  split at h
  next closer hcloser =>
    split_ifs at h with hfront
    cases h
    obtain ⟨rest, rfl⟩ := List.isPrefixOf_iff_prefix.mp hfront
    exact ⟨closer, rest, hcloser, rfl, by simp⟩
  next => cases h

theorem closing?_again {text after : List Char} (h : closing? mode (text ++ after) = none) (rest : List Char) :
    closing? mode (text ++ '\n' :: rest) = none := by
  refine Option.eq_none_iff_forall_ne_some.mpr fun scan hscan => ?_
  obtain ⟨closer, left, hcloser, hagain, -⟩ := exists_closer hscan
  have hfeed : '\n' ∉ closer.spelling := by
    cases mode <;> cases hcloser <;> simp
  obtain ⟨more, rfl⟩ := isPrefix_of_line hfeed ⟨left, hagain.symm⟩
  rw [List.append_assoc, closing?_spelling hcloser] at h
  cases h

theorem closing?_of_head (mode : Mode) {c : Char} (hc : c ≠ '>' ∧ c ≠ ']' ∧ c ≠ '}' ∧ c ≠ '%') (rest : List Char) :
    closing? mode (c :: rest) = none := by
  refine Option.eq_none_iff_forall_ne_some.mpr fun scan hscan => ?_
  obtain ⟨closer, left, hcloser, hmark, -⟩ := exists_closer hscan
  cases mode <;> cases hcloser <;> simp_all

theorem rereads_closing {text : List Char} {scan : Scan} (h : closing? mode text = some scan)
    (hread : ∀ text scan, closing? mode text = some scan → read text = scan) : scan.Rereads read := by
  obtain ⟨closer, rest, hcloser, -, rfl⟩ := exists_closer h
  refine rereads_lexeme ?_ fun rest => hread _ _ (closing?_spelling hcloser _)
  cases mode <;> cases hcloser <;> rfl

theorem opening_spelling (mode : Mode) (opener : Opener) (rest : List Char) :
    opening mode opener (opener.spelling ++ rest) =
      lexeme (opener.leadsTo mode) opener.kind (opener.spelling, rest) := by
  rw [opening, List.drop_left]

theorem rereads_opening {opener : Opener} (text : List Char)
    (hread : ∀ rest, read (opener.spelling ++ rest) = opening mode opener (opener.spelling ++ rest)) :
    (opening mode opener text).Rereads read := by
  refine rereads_lexeme (by cases opener <;> rfl) fun rest => ?_
  rw [hread, opening_spelling]

theorem rereads_string {quote : Char} (text : List Char)
    (hread : ∀ text, read ('"' :: text) = string mode '"' text) : (string mode quote text).Rereads read := by
  unfold string
  generalize Lexeme.stringBody quote text = split
  obtain ⟨body, after⟩ := split
  dsimp only
  split
  · exact rereads_error rfl
  · split_ifs
    · refine rereads_ok fun rest => ?_
      rw [TokenKind.written, String.toList_ofList]
      simp only [List.cons_append, List.append_assoc, List.nil_append, hread]
      simp [string, Lexeme.stringBody_encoded, Lexeme.decoded_encoded]
    · exact rereads_error rfl

theorem rereads_number {text : List Char} (hread : ∀ rest, read ((Lexeme.number text).1 ++ '\n' :: rest) =
    number mode ((Lexeme.number text).1 ++ '\n' :: rest)) : (number mode text).Rereads read := by
  have hagain := Lexeme.number_again text
  unfold number at hread ⊢
  generalize Lexeme.number text = split at hread hagain ⊢
  obtain ⟨literal, after⟩ := split
  dsimp only at hread hagain ⊢
  split_ifs with hliteral
  · refine rereads_lexeme rfl fun rest => ?_
    rw [hread, hagain]
    exact if_pos hliteral
  · exact rereads_error rfl

theorem rereads_word {text : List Char} (hread : ∀ rest, read ((Lexeme.word text).1 ++ '\n' :: rest) =
    word mode ((Lexeme.word text).1 ++ '\n' :: rest)) : (word mode text).Rereads read := by
  refine rereads_lexeme (Vocabulary.isVerbatim_kindOf _) fun rest => ?_
  rw [hread, word, Lexeme.word_again]

theorem markedName_cons {c : Char} (h : Lexeme.isWordStart c = true) (mark : Char) (rest : List Char) :
    markedName mode mark (c :: rest) = ⟨mark :: (Lexeme.word (c :: rest)).1, (Lexeme.word (c :: rest)).2, mode,
      .ok (.attributeKeyword, String.ofList (Lexeme.word (c :: rest)).1)⟩ :=
  if_pos h

theorem rereads_markedName (text : List Char) (hread : ∀ text, read ('@' :: text) = markedName mode '@' text) :
    (markedName mode '@' text).Rereads read := by
  cases text with
  | nil => exact rereads_error rfl
  | cons c text =>
      by_cases hstart : Lexeme.isWordStart c = true
      · rw [markedName_cons hstart]
        refine rereads_ok fun rest => ?_
        obtain ⟨more, hmore⟩ := exists_cons_of_append (Lexeme.word_append (c :: text)) (Lexeme.word_ne_nil hstart)
        have hagain := Lexeme.word_again (c :: text) rest
        rw [hmore, List.cons_append] at hagain
        rw [TokenKind.written, String.toList_ofList, List.cons_append, hread, hmore, List.cons_append,
          markedName_cons hstart, hagain]
      · rw [markedName, if_neg hstart]
        exact rereads_error rfl

theorem inText_of_textRun {text run rest : List Char} (h : textRun text = (run, rest)) (hne : run ≠ []) :
    inText text = ⟨run, rest, .text, .ok (.textRun, String.ofList (Text.trimEnd run))⟩ := by
  cases text with
  | nil =>
      cases h
      exact absurd rfl hne
  | cons c text =>
      cases hopener : Opener.at? (c :: text) with
      | some opener =>
          simp only [textRun, hopener] at h
          cases h
          exact absurd rfl hne
      | none => simp only [inText, hopener, h]

theorem inText_spelling (opener : Opener) (rest : List Char) :
    inText (opener.spelling ++ rest) = opening .text opener (opener.spelling ++ rest) := by
  simp only [inText, Opener.at?_spelling]

theorem rereads_inText {text : List Char} (h : ∀ c ∈ text.head?, Text.isBlank c = false) :
    (inText text).Rereads inText := by
  cases hopener : Opener.at? text with
  | some opener =>
      have hopens : inText text = opening .text opener text := by
        rw [Opener.eq_append_of_at? hopener, inText_spelling]
      rw [hopens]
      exact rereads_opening text (inText_spelling opener)
  | none =>
      cases text with
      | nil => exact rereads_endOfInput
      | cons c text =>
          have hrun : textRun (c :: text) = (c :: (textRun text).1, (textRun text).2) := by
            rw [textRun, hopener]
            rfl
          rw [inText_of_textRun hrun (List.cons_ne_nil _ _)]
          rintro kind word rest ⟨⟩ - hrest
          have hword : Text.trimEnd (c :: (textRun text).1) <+: (textRun (c :: text)).1 := by
            rw [hrun]
            exact ⟨_, Text.trimEnd_append _⟩
          have hagain := inText_of_textRun (textRun_again hword (hrest rfl)) (by simp)
          rw [TokenKind.written_ofList rfl, hagain, Text.trimEnd_concat (by decide), Text.trimEnd_trimEnd]
          exact ⟨rfl, rfl, [], by simp, rfl⟩

/-- The marks of a mode come first in it. -/
theorem inAttributes_of_closing? {text : List Char} {scan : Scan} (h : closing? mode text = some scan) :
    inAttributes mode text = scan := by
  simp only [inAttributes, h]

theorem inAttributes_cons {c : Char} {rest : List Char} (h : closing? mode (c :: rest) = none) :
    inAttributes mode (c :: rest) =
      if Opener.at? (c :: rest) = some .embedded then opening mode .embedded (c :: rest)
      else if Lexeme.isQuote c then string mode c rest
      else if c = '=' then lexeme mode .punctuation ([c], rest)
      else if c = '@' then markedName mode c rest
      else if Lexeme.isWordStart c then lexeme mode .identifier (Lexeme.word (c :: rest))
      else unexpected mode c rest := by
  simp only [inAttributes, h]

/-- The line of a lexeme passes the tests for marks that the lexeme has passed. -/
theorem inAttributes_again {c : Char} {more after : List Char}
    (hclosing : closing? mode (c :: more ++ after) = none)
    (hopener : Opener.at? (c :: more ++ after) ≠ some .embedded) (rest : List Char) :
    inAttributes mode (c :: more ++ '\n' :: rest) =
      if Lexeme.isQuote c then string mode c (more ++ '\n' :: rest)
      else if c = '=' then lexeme mode .punctuation ([c], more ++ '\n' :: rest)
      else if c = '@' then markedName mode c (more ++ '\n' :: rest)
      else if Lexeme.isWordStart c then lexeme mode .identifier (Lexeme.word (c :: more ++ '\n' :: rest))
      else unexpected mode c (more ++ '\n' :: rest) :=
  (inAttributes_cons (closing?_again hclosing rest)).trans (if_neg (Opener.at?_again_ne hopener rest))

theorem rereads_inAttributes (mode : Mode) (text : List Char) :
    (inAttributes mode text).Rereads (inAttributes mode) := by
  cases hclosing : closing? mode text with
  | some scan =>
      rw [inAttributes_of_closing? hclosing]
      exact rereads_closing hclosing fun _ _ => inAttributes_of_closing?
  | none =>
      cases text with
      | nil =>
          simp only [inAttributes, hclosing]
          exact rereads_endOfInput
      | cons c rest =>
          rw [inAttributes_cons hclosing]
          split_ifs with hopener hquote hequals hmark hword
          · refine rereads_opening (c :: rest) fun rest => ?_
            rw [Opener.spelling, List.cons_append, inAttributes_cons (closing?_of_head mode (by decide) _)]
            rfl
          · refine rereads_string rest fun text => ?_
            rw [inAttributes_cons (closing?_of_head mode (by decide) _)]
            rfl
          · subst hequals
            refine rereads_lexeme rfl fun rest => ?_
            rw [List.cons_append, inAttributes_cons (closing?_of_head mode (by decide) _)]
            rfl
          · subst hmark
            refine rereads_markedName rest fun text => ?_
            rw [inAttributes_cons (closing?_of_head mode (by decide) _)]
            rfl
          · have hline := Lexeme.word_append (c :: rest)
            obtain ⟨more, hmore⟩ := exists_cons_of_append hline (Lexeme.word_ne_nil hword)
            refine rereads_lexeme rfl fun after => ?_
            have hagain := Lexeme.word_again (c :: rest) after
            rw [hmore] at hline hagain ⊢
            rw [← hline] at hclosing hopener
            rw [inAttributes_again hclosing hopener, if_neg hquote, if_neg hequals, if_neg hmark, if_pos hword, hagain]
          · exact rereads_error rfl

theorem inLogic_of_closing? {text : List Char} {scan : Scan} (h : closing? mode text = some scan) :
    inLogic mode text = scan := by
  simp only [inLogic, h]

theorem inLogic_cons {c : Char} {rest : List Char} (h : closing? mode (c :: rest) = none) :
    inLogic mode (c :: rest) =
      if Opener.at? (c :: rest) = some .embedded then
        ⟨[], c :: rest, mode, .error (if mode = .logic then .embeddingInLogic else .nestedEmbedding)⟩
      else if Lexeme.isQuote c then string mode c rest
      else if Lexeme.startsNumber (c :: rest) then number mode (c :: rest)
      else if Lexeme.isPunctuation c then lexeme mode .punctuation ([c], rest)
      else if Lexeme.isOperatorStart c then lexeme mode .operator (Lexeme.operator (c :: rest))
      else if Lexeme.isWordStart c then word mode (c :: rest)
      else unexpected mode c rest := by
  simp only [inLogic, h]

theorem inLogic_again {c : Char} {more after : List Char} (hclosing : closing? mode (c :: more ++ after) = none)
    (hopener : Opener.at? (c :: more ++ after) ≠ some .embedded) (rest : List Char) :
    inLogic mode (c :: more ++ '\n' :: rest) =
      if Lexeme.isQuote c then string mode c (more ++ '\n' :: rest)
      else if Lexeme.startsNumber (c :: more ++ '\n' :: rest) then number mode (c :: more ++ '\n' :: rest)
      else if Lexeme.isPunctuation c then lexeme mode .punctuation ([c], more ++ '\n' :: rest)
      else if Lexeme.isOperatorStart c then lexeme mode .operator (Lexeme.operator (c :: more ++ '\n' :: rest))
      else if Lexeme.isWordStart c then word mode (c :: more ++ '\n' :: rest)
      else unexpected mode c (more ++ '\n' :: rest) :=
  (inLogic_cons (closing?_again hclosing rest)).trans (if_neg (Opener.at?_again_ne hopener rest))

theorem rereads_inLogic (mode : Mode) (text : List Char) : (inLogic mode text).Rereads (inLogic mode) := by
  cases hclosing : closing? mode text with
  | some scan =>
      rw [inLogic_of_closing? hclosing]
      exact rereads_closing hclosing fun _ _ => inLogic_of_closing?
  | none =>
      cases text with
      | nil =>
          simp only [inLogic, hclosing]
          exact rereads_endOfInput
      | cons c rest =>
          rw [inLogic_cons hclosing]
          split_ifs with hopener hlogic hquote hnumber hpunctuation hoperator hword
          · exact rereads_error rfl
          · exact rereads_error rfl
          · refine rereads_string rest fun text => ?_
            rw [inLogic_cons (closing?_of_head mode (by decide) _)]
            rfl
          · have hline := Lexeme.number_append (c :: rest)
            obtain ⟨more, hmore⟩ := exists_cons_of_append hline (Lexeme.number_ne_nil hnumber)
            refine rereads_number fun after => ?_
            have hagain := Lexeme.startsNumber_number hnumber ('\n' :: after)
            rw [hmore] at hline hagain ⊢
            rw [← hline] at hclosing hopener
            rw [inLogic_again hclosing hopener, if_neg hquote, if_pos hagain]
          · refine rereads_lexeme rfl fun after => ?_
            have hdigit : ¬Lexeme.startsNumber ([c] ++ '\n' :: after) = true := fun h =>
              hnumber (Lexeme.startsNumber_again h rest)
            have hagain := @inLogic_again mode c [] rest hclosing hopener after
            rw [hagain, if_neg hquote, if_neg hdigit, if_pos hpunctuation]
            rfl
          · have hline := Lexeme.operator_append (c :: rest)
            obtain ⟨more, hmore⟩ := exists_cons_of_append hline (Lexeme.operator_ne_nil c rest)
            refine rereads_lexeme rfl fun after => ?_
            have hagain := Lexeme.operator_again c rest after
            rw [hmore] at hline hagain ⊢
            rw [← hline] at hclosing hopener hnumber
            rw [inLogic_again hclosing hopener, if_neg hquote, if_neg fun h => hnumber (Lexeme.startsNumber_again h _),
              if_neg hpunctuation, if_pos hoperator, hagain]
          · have hline := Lexeme.word_append (c :: rest)
            obtain ⟨more, hmore⟩ := exists_cons_of_append hline (Lexeme.word_ne_nil hword)
            refine rereads_word fun after => ?_
            rw [hmore] at hline ⊢
            rw [← hline] at hclosing hopener hnumber
            rw [inLogic_again hclosing hopener, if_neg hquote, if_neg fun h => hnumber (Lexeme.startsNumber_again h _),
              if_neg hpunctuation, if_neg hoperator, if_pos hword]
          · exact rereads_error rfl

theorem rereads_scan {mode : Mode} {text : List Char} (h : mode.Stops text) : (mode.scan text).Rereads mode.scan := by
  cases mode with
  | text => exact rereads_inText (Mode.stops_iff.mp h).1
  | questionAttributes => exact rereads_inAttributes _ text
  | optionAttributes => exact rereads_inAttributes _ text
  | embedded => exact rereads_inLogic _ text
  | logic => exact rereads_inLogic _ text

theorem textRun_of_at? {text : List Char} {opener : Opener} (h : Opener.at? text = some opener) :
    textRun text = ([], text) := by
  cases text with
  | nil => rfl
  | cons c text => rw [textRun, if_pos (by simp [h])]

theorem textRun_rest (text : List Char) : textRun (textRun text).2 = ([], (textRun text).2) := by
  fun_induction textRun text with
  | case1 => rfl
  | case2 c rest hopener => rw [textRun, if_pos hopener]
  | case3 c rest _ run left hsplit ih =>
      rw [hsplit] at ih
      exact ih

theorem eq_nil_or_mark {text : List Char} (h : textRun text = ([], text)) :
    text = [] ∨ ∃ (opener : Opener) (rest : List Char), text = opener.spelling ++ rest := by
  cases text with
  | nil => exact .inl rfl
  | cons c text =>
      cases hopener : Opener.at? (c :: text) with
      | some opener => exact .inr ⟨opener, _, Opener.eq_append_of_at? hopener⟩
      | none =>
          rw [textRun, if_neg (by simp [hopener])] at h
          cases h

/-- Behind a free text stands a mark, or nothing. -/
theorem textRun_of_outcome {mode : Mode} {text : List Char} {word : String}
    (h : (mode.scan text).outcome = .ok (.textRun, word)) :
    (mode.scan text).mode = .text ∧ textRun (mode.scan text).rest = ([], (mode.scan text).rest) := by
  have hturns := follows_scan mode text
  rw [Follows, h] at hturns
  obtain ⟨rfl, hmode⟩ : mode = .text ∧ (mode.scan text).mode = .text := by
    generalize (mode.scan text).mode = after at hturns ⊢
    cases hturns with
    | textRun => exact ⟨rfl, rfl⟩
    | logical _ hkind => exact absurd hkind (by decide)
    | shared _ hkind => exact absurd hkind (by decide)
  refine ⟨hmode, ?_⟩
  change (inText text).outcome = _ at h
  change textRun (inText text).rest = ([], (inText text).rest)
  cases hopener : Opener.at? text with
  | some opener =>
      rw [Opener.eq_append_of_at? hopener, inText_spelling] at h
      cases opener <;> cases h
  | none =>
      cases text with
      | nil => rfl
      | cons c text =>
          simp only [inText, hopener]
          exact textRun_rest (c :: text)

end Scan

/-- A token is written as it is spelled, but for strings. -/
theorem TokenKind.Spelled.written_eq {kind : TokenKind} {word : String} {lexeme : List Char}
    (h : kind.Spelled word lexeme) (hkind : kind ≠ .string) : kind.written word = lexeme := by
  cases kind with
  | string => exact absurd rfl hkind
  | _ => exact h.symm

theorem Mode.Stops.tells {mode : Mode} {text : List Char} (h : mode.Stops text) : (mode.scan text).Tells text :=
  Scan.tells_scan mode fun htext => by
    subst htext
    exact (stops_iff.mp h).1

/-- What a scan answers is not passed over when it is written again. -/
theorem Mode.Stops.written {mode : Mode} {text : List Char} {kind : TokenKind} {word : String} (h : mode.Stops text)
    (houtcome : (mode.scan text).outcome = .ok (kind, word)) (hkind : kind ≠ .endOfInput) (rest : List Char) :
    mode.Stops (kind.written word ++ '\n' :: rest) := by
  by_cases hstring : kind = .string
  · subst hstring
    exact mode.stops_quote _
  · obtain ⟨lexeme, trail, htaken, hne, hspelled, -⟩ := h.tells.token kind word houtcome hkind
    obtain ⟨c, more, rfl⟩ := List.exists_cons_of_ne_nil hne
    rw [hspelled.written_eq hstring]
    rw [← (Scan.fits_scan mode text).append, htaken, List.append_assoc] at h
    exact h.again rest

end Questionnaire
