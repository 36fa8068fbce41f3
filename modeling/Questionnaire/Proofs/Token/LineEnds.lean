import Questionnaire.Proofs.Token.Rereading

/-! Changes of a text behind the ends of its lines. Outside of free text every lexeme but a string lies on one line, and
no scan looks further than to the end of that line. The main statement says that a scan of the changed text takes what
it took before, and leaves the change of what it left. -/

namespace Questionnaire

/-- Nothing more stands on the line. -/
def EndsLine (text : List Char) : Prop := ∀ c ∈ text.head?, c = '\n' ∨ c = '\r'

/-- Each line stays as it is up to its end, and still ends there. -/
structure KeepsLines (change : List Char → List Char) : Prop where
  plain : ∀ c text, c ≠ '\n' → change (c :: text) = c :: change text
  feed : ∀ text, EndsLine (change ('\n' :: text))
  nil : EndsLine (change [])

/-- The same scan, with what it leaves changed. -/
def Scan.changed (change : List Char → List Char) (scan : Scan) : Scan := { scan with rest := change scan.rest }

namespace EndsLine

variable {text : List Char} {part : Char → Bool}

theorem not_part {c : Char} (h : EndsLine (c :: text)) (hfeed : part '\n' = false) (hreturn : part '\r' = false) :
    part c = false := by
  rcases h c rfl with rfl | rfl
  · exact hfeed
  · exact hreturn

theorem takeWhile_eq (h : EndsLine text) (hfeed : part '\n' = false) (hreturn : part '\r' = false) :
    text.takeWhile part = [] := by
  cases text with
  | nil => rfl
  | cons c text => exact List.takeWhile_cons_of_neg (by simp [h.not_part hfeed hreturn])

theorem dropWhile_eq (h : EndsLine text) (hfeed : part '\n' = false) (hreturn : part '\r' = false) :
    text.dropWhile part = text := by
  cases text with
  | nil => rfl
  | cons c text => exact List.dropWhile_cons_of_neg (by simp [h.not_part hfeed hreturn])

theorem not_prefix {d : Char} {mark : List Char} (h : EndsLine text) (hfeed : d ≠ '\n') (hreturn : d ≠ '\r') :
    ¬d :: mark <+: text := by
  rintro ⟨rest, rfl⟩
  rcases h d rfl with heq | heq
  · exact hfeed heq
  · exact hreturn heq

theorem operator_eq (h : EndsLine text) (c : Char) : Lexeme.operator (c :: text) = ([c], text) := by
  cases text with
  | nil => rfl
  | cons d text =>
      rw [Lexeme.operator, if_neg]
      rintro ⟨rfl, -⟩
      have hcases := h '=' rfl
      simp at hcases

theorem startsNumber_eq (h : EndsLine text) (c : Char) : Lexeme.startsNumber (c :: text) = c.isDigit := by
  cases text with
  | nil =>
      by_cases hc : c = '.'
      · rw [hc]; rfl
      · simp [Lexeme.startsNumber]
  | cons d text =>
      have hdigit : d.isDigit = false := h.not_part (by decide) (by decide)
      rw [Lexeme.startsNumber_cons_cons, hdigit]
      split_ifs with hc
      · rw [hc]; rfl
      · rfl

end EndsLine

namespace KeepsLines

variable {change : List Char → List Char} {part : Char → Bool}

/-- Either a character of the line stays in front, or the line ends before the change and after it. -/
theorem cases (h : KeepsLines change) (text : List Char) :
    (∃ c rest, c ≠ '\n' ∧ text = c :: rest ∧ change text = c :: change rest) ∨
      EndsLine text ∧ EndsLine (change text) := by
  cases text with
  | nil => exact .inr ⟨fun _ hc => (by cases hc), h.nil⟩
  | cons c rest =>
      by_cases hc : c = '\n'
      · subst hc
        exact .inr ⟨fun d hd => .inl (Option.some.inj hd).symm, h.feed rest⟩
      · exact .inl ⟨c, rest, hc, rfl, h.plain c rest hc⟩

theorem takeWhile_change (h : KeepsLines change) (hfeed : part '\n' = false) (hreturn : part '\r' = false)
    (text : List Char) : (change text).takeWhile part = text.takeWhile part := by
  induction text with
  | nil => rw [h.nil.takeWhile_eq hfeed hreturn]; rfl
  | cons c text ih =>
      by_cases hc : c = '\n'
      · subst hc
        rw [(h.feed text).takeWhile_eq hfeed hreturn, List.takeWhile_cons_of_neg (by simp [hfeed])]
      · rw [h.plain c text hc, List.takeWhile_cons, List.takeWhile_cons, ih]

theorem dropWhile_change (h : KeepsLines change) (hfeed : part '\n' = false) (hreturn : part '\r' = false)
    (text : List Char) : (change text).dropWhile part = change (text.dropWhile part) := by
  induction text with
  | nil => exact h.nil.dropWhile_eq hfeed hreturn
  | cons c text ih =>
      by_cases hc : c = '\n'
      · subst hc
        rw [(h.feed text).dropWhile_eq hfeed hreturn, List.dropWhile_cons_of_neg (by simp [hfeed])]
      · rw [h.plain c text hc, List.dropWhile_cons, List.dropWhile_cons, ih]
        split_ifs
        · rfl
        · exact (h.plain c text hc).symm

theorem append_change (h : KeepsLines change) {mark : List Char} (hfeed : '\n' ∉ mark) (rest : List Char) :
    change (mark ++ rest) = mark ++ change rest := by
  induction mark with
  | nil => rfl
  | cons c mark ih =>
      obtain ⟨hc, hmark⟩ := not_or.mp (List.mem_cons.not.mp hfeed)
      rw [List.cons_append, h.plain c _ (Ne.symm hc), ih hmark, List.cons_append]

/-- Marks lie within their line. -/
theorem prefix_change (h : KeepsLines change) {mark : List Char} (hfeed : '\n' ∉ mark) (hreturn : '\r' ∉ mark)
    {text : List Char} : mark <+: change text ↔ mark <+: text := by
  induction mark generalizing text with
  | nil => exact iff_of_true List.nil_prefix List.nil_prefix
  | cons d mark ih =>
      obtain ⟨hd, hfeed⟩ := not_or.mp (List.mem_cons.not.mp hfeed)
      obtain ⟨hd', hreturn⟩ := not_or.mp (List.mem_cons.not.mp hreturn)
      rcases h.cases text with ⟨c, rest, -, rfl, hchange⟩ | ⟨hends, hchange⟩
      · rw [hchange, List.cons_prefix_cons, List.cons_prefix_cons, ih hfeed hreturn]
      · exact iff_of_false (hchange.not_prefix (Ne.symm hd) (Ne.symm hd')) (hends.not_prefix (Ne.symm hd) (Ne.symm hd'))

end KeepsLines

theorem exists_line (text : List Char) :
    ∃ line, '\n' ∉ line ∧ (text = line ∨ ∃ rest, text = line ++ '\n' :: rest) := by
  induction text with
  | nil => exact ⟨[], List.not_mem_nil, .inl rfl⟩
  | cons c text ih =>
      by_cases hc : c = '\n'
      · subst hc
        exact ⟨[], List.not_mem_nil, .inr ⟨text, rfl⟩⟩
      · obtain ⟨line, hline, htext⟩ := ih
        refine ⟨c :: line, by simp [Ne.symm hc, hline], ?_⟩
        rcases htext with rfl | ⟨rest, rfl⟩
        · exact .inl rfl
        · exact .inr ⟨rest, rfl⟩

namespace Cursor

variable {blank : Char → Bool} {c : Char} {line : List Char}

theorem skipWhile_cons (h : blank c = true) (text : List Char) (position : Position) :
    skipWhile blank ⟨c :: text, position⟩ = skipWhile blank ⟨text, position.step c⟩ := by
  rw [skipWhile, skipWhile, List.dropWhile_cons_of_pos h, List.takeWhile_cons_of_pos h, Position.past_cons]

theorem skipWhile_of_head {cursor : Cursor} (h : ∀ c ∈ cursor.rest.head?, blank c = false) :
    cursor.skipWhile blank = cursor := by
  obtain ⟨text, position⟩ := cursor
  cases text with
  | nil => rfl
  | cons c text =>
      have hc : ¬blank c = true := by simp [h c rfl]
      rw [skipWhile, List.dropWhile_cons_of_neg hc, List.takeWhile_cons_of_neg hc]
      rfl

theorem skipRemarks_cons (h : Text.isSpace c = true) (text : List Char) (position : Position) :
    skipRemarks ⟨c :: text, position⟩ = skipRemarks ⟨text, position.step c⟩ := by
  rw [skipRemarks, skipWhile_cons h, ← skipRemarks]

theorem lineEnd_line (h : '\n' ∉ line) (rest : List Char) : lineEnd (line ++ '\n' :: rest) = '\n' :: rest := by
  have hline : ∀ c ∈ line, (c != '\n') = true := fun c hc => by simpa using fun heq : c = '\n' => h (heq ▸ hc)
  rw [lineEnd, List.dropWhile_append_of_pos hline]
  rfl

theorem passRemark_line (h : '\n' ∉ line) (rest : List Char) (position : Position) :
    passRemark ⟨line ++ '\n' :: rest, position⟩ = ⟨'\n' :: rest, position.past line⟩ := by
  have hline : ∀ c ∈ line, (c != '\n') = true := fun c hc => by simpa using fun heq : c = '\n' => h (heq ▸ hc)
  simp only [passRemark, lineEnd_line h]
  rw [List.takeWhile_append_of_pos hline]
  simp

theorem passRemark_last (h : '\n' ∉ line) (position : Position) : passRemark ⟨line, position⟩ = ⟨[], position⟩ := by
  have hline : ∀ c ∈ line, (c != '\n') = true := fun c hc => by simpa using fun heq : c = '\n' => h (heq ▸ hc)
  have hend : lineEnd line = [] := List.dropWhile_eq_nil_iff.mpr hline
  simp only [passRemark, hend]
  rfl

end Cursor

namespace Opener

theorem at?_eq_some_iff {text : List Char} {opener : Opener} :
    at? text = some opener ↔ opener.spelling <+: text := by
  constructor
  · intro h
    exact ⟨_, (eq_append_of_at? h).symm⟩
  · rintro ⟨rest, rfl⟩
    exact at?_spelling opener rest

end Opener

namespace KeepsLines

variable {change : List Char → List Char}

theorem at?_change (h : KeepsLines change) (text : List Char) : Opener.at? (change text) = Opener.at? text := by
  refine Option.ext fun opener => ?_
  rw [Opener.at?_eq_some_iff, Opener.at?_eq_some_iff]
  exact h.prefix_change (by cases opener <;> decide) (by cases opener <;> decide)

theorem startsRemark_change (h : KeepsLines change) (text : List Char) :
    Lexeme.startsRemark (change text) = Lexeme.startsRemark text := by
  rw [Bool.eq_iff_iff, Lexeme.startsRemark_iff, Lexeme.startsRemark_iff]
  exact h.prefix_change (by decide) (by decide)

theorem word_change (h : KeepsLines change) (text : List Char) :
    Lexeme.word (change text) = ((Lexeme.word text).1, change (Lexeme.word text).2) := by
  rw [Lexeme.word, h.takeWhile_change (by decide) (by decide), h.dropWhile_change (by decide) (by decide)]
  rfl

theorem startsNumber_change (h : KeepsLines change) (c : Char) (text : List Char) :
    Lexeme.startsNumber (c :: change text) = Lexeme.startsNumber (c :: text) := by
  rcases h.cases text with ⟨d, rest, -, rfl, hchange⟩ | ⟨hends, hchange⟩
  · rw [hchange, Lexeme.startsNumber_cons_cons, Lexeme.startsNumber_cons_cons]
  · rw [hends.startsNumber_eq, hchange.startsNumber_eq]

theorem operator_change (h : KeepsLines change) (c : Char) (text : List Char) :
    Lexeme.operator (c :: change text) =
      ((Lexeme.operator (c :: text)).1, change (Lexeme.operator (c :: text)).2) := by
  rcases h.cases text with ⟨d, rest, -, rfl, hchange⟩ | ⟨hends, hchange⟩
  · rw [hchange, Lexeme.operator, Lexeme.operator]
    split_ifs
    · rfl
    · rw [hchange]
  · rw [hends.operator_eq, hchange.operator_eq]

theorem number_change (h : KeepsLines change) (text : List Char) :
    Lexeme.number (change text) = ((Lexeme.number text).1, change (Lexeme.number text).2) := by
  have htake := h.takeWhile_change (by decide : Char.isDigit '\n' = false) (by decide)
  have hdrop := h.dropWhile_change (by decide : Char.isDigit '\n' = false) (by decide)
  simp only [Lexeme.number, htake, hdrop]
  rcases h.cases (text.dropWhile Char.isDigit) with ⟨d, rest, -, hrest, hchange⟩ | ⟨hends, hchange⟩
  · rw [hrest] at hchange ⊢
    rw [hchange]
    by_cases hpoint : d = '.'
    · subst hpoint
      simp only [htake, hdrop]
    · simp [hpoint, hchange]
  · have hpoint : ∀ after, EndsLine after → ∀ rest, after ≠ '.' :: rest := by
      rintro _ hends rest rfl
      have hcases := hends '.' rfl
      simp at hcases
    split
    next rest heq => exact absurd heq (hpoint _ hchange rest)
    next =>
      split
      next rest heq => exact absurd heq (hpoint _ hends rest)
      next => rfl

/-- A string is read to its closing quote in the changed text too, if the line feeds that backslashes take along stay
as they are. -/
theorem stringBody_change (h : KeepsLines change) {quote : Char} {text after : List Char}
    (hquote : Lexeme.isQuote quote = true)
    (hescape : ∀ rest, '\\' :: '\n' :: rest <:+ text → change ('\n' :: rest) = '\n' :: change rest)
    (hclosed : (Lexeme.stringBody quote text).2 = quote :: after) :
    Lexeme.stringBody quote (change text) = ((Lexeme.stringBody quote text).1, quote :: change after) := by
  have hfeed : quote ≠ '\n' := by
    rintro rfl
    cases hquote
  have hbackslash : '\\' ≠ quote := by
    rintro rfl
    cases hquote
  fun_induction Lexeme.stringBody quote text generalizing after with
  | case1 => cases hclosed
  | case2 c =>
      obtain ⟨rfl, rfl⟩ := List.cons.inj hclosed
      rw [h.plain c [] hfeed]
      exact Lexeme.stringBody_quote c _
  | case3 => cases hclosed
  | case4 c d rest =>
      obtain ⟨rfl, rfl⟩ := List.cons.inj hclosed
      rw [h.plain c _ hfeed]
      exact Lexeme.stringBody_quote c _
  | case5 d rest body left hsplit hstop ih =>
      have hnext : change (d :: rest) = d :: change rest := by
        by_cases hd : d = '\n'
        · subst hd
          exact hescape rest (List.suffix_refl _)
        · exact h.plain d rest hd
      have hlater : ∀ tail, '\\' :: '\n' :: tail <:+ rest → change ('\n' :: tail) = '\n' :: change tail :=
        fun tail htail => hescape tail (htail.trans ((List.suffix_cons d rest).trans (List.suffix_cons _ _)))
      rw [h.plain _ _ (by decide), hnext, Lexeme.stringBody_escape hbackslash]
      rw [hsplit] at ih
      rw [ih hlater hclosed]
  | case6 c d rest hstop hplain body left hsplit ih =>
      obtain ⟨hc, hc'⟩ := not_or.mp hstop
      have hlater : ∀ tail, '\\' :: '\n' :: tail <:+ d :: rest → change ('\n' :: tail) = '\n' :: change tail :=
        fun tail htail => hescape tail (htail.trans (List.suffix_cons c _))
      rw [h.plain c _ hc, Lexeme.stringBody_plain hc hc' hplain]
      rw [hsplit] at ih
      rw [ih hlater hclosed]

end KeepsLines

namespace Scan

variable {change : List Char → List Char} {mode : Mode}

theorem closing?_change (h : KeepsLines change) (mode : Mode) (text : List Char) :
    closing? mode (change text) = (closing? mode text).map (changed change) := by
  unfold closing?
  split
  next closer hcloser =>
    have hfeed : '\n' ∉ closer.spelling := by cases mode <;> cases hcloser <;> simp
    have hreturn : '\r' ∉ closer.spelling := by cases mode <;> cases hcloser <;> simp
    simp only [List.isPrefixOf_iff_prefix, h.prefix_change hfeed hreturn]
    split_ifs with hfront
    · obtain ⟨rest, rfl⟩ := hfront
      rw [h.append_change hfeed, List.drop_left, List.drop_left]
      rfl
    · rfl
  next => rfl

theorem opening_change (h : KeepsLines change) {opener : Opener} {text : List Char}
    (hopener : Opener.at? text = some opener) :
    opening mode opener (change text) = (opening mode opener text).changed change := by
  obtain ⟨rest, rfl⟩ := Opener.at?_eq_some_iff.mp hopener
  rw [h.append_change (by cases opener <;> decide), opening_spelling, opening_spelling]
  rfl

theorem markedName_of_ends {text : List Char} (h : EndsLine text) (mark : Char) :
    markedName mode mark text = ⟨[mark], text, mode, .error .attributeNameMissing⟩ := by
  cases text with
  | nil => rfl
  | cons c text =>
      have hstart : Lexeme.isWordStart c = false := h.not_part (by decide) (by decide)
      rw [markedName, if_neg (by simp [hstart])]

theorem markedName_change (h : KeepsLines change) (mark : Char) (text : List Char) :
    markedName mode mark (change text) = (markedName mode mark text).changed change := by
  rcases h.cases text with ⟨c, rest, -, rfl, hchange⟩ | ⟨hends, hchange⟩
  · by_cases hstart : Lexeme.isWordStart c = true
    · have hword := h.word_change (c :: rest)
      rw [hchange] at hword ⊢
      rw [markedName_cons hstart, markedName_cons hstart, hword]
      rfl
    · rw [hchange, markedName, if_neg hstart, markedName, if_neg hstart, ← hchange]
      rfl
  · rw [markedName_of_ends hends, markedName_of_ends hchange]
    rfl

theorem number_change (h : KeepsLines change) (text : List Char) :
    number mode (change text) = (number mode text).changed change := by
  rw [number, number, h.number_change]
  dsimp only
  split_ifs <;> rfl

theorem word_change (h : KeepsLines change) (text : List Char) :
    word mode (change text) = (word mode text).changed change := by
  rw [word, word, h.word_change]
  rfl

theorem string_change (h : KeepsLines change) {quote : Char} {text after : List Char}
    (hquote : Lexeme.isQuote quote = true)
    (hescape : ∀ rest, '\\' :: '\n' :: rest <:+ text → change ('\n' :: rest) = '\n' :: change rest)
    (hclosed : (Lexeme.stringBody quote text).2 = quote :: after) :
    string mode quote (change text) = (string mode quote text).changed change := by
  rw [string, string, h.stringBody_change hquote hescape hclosed]
  generalize Lexeme.stringBody quote text = split at hclosed ⊢
  obtain ⟨body, left⟩ := split
  dsimp only at hclosed ⊢
  subst hclosed
  simp only [if_pos]
  rfl

variable {c : Char} {text : List Char}

theorem inAttributes_change (h : KeepsLines change) (hc : c ≠ '\n') (hstring : Lexeme.isQuote c = true →
    string mode c (change text) = (string mode c text).changed change) :
    inAttributes mode (c :: change text) = (inAttributes mode (c :: text)).changed change := by
  have hfront : change (c :: text) = c :: change text := h.plain c text hc
  have hcloser := closing?_change h mode (c :: text)
  have hopener := h.at?_change (c :: text)
  have hword := h.word_change (c :: text)
  have hopening : Opener.at? (c :: text) = some .embedded →
      opening mode .embedded (change (c :: text)) = (opening mode .embedded (c :: text)).changed change :=
    opening_change h
  rw [hfront] at hcloser hopener hword hopening
  cases hclosing : closing? mode (c :: text) with
  | some scan =>
      rw [hclosing] at hcloser
      rw [inAttributes_of_closing? hclosing, inAttributes_of_closing? hcloser]
  | none =>
      rw [hclosing] at hcloser
      rw [inAttributes_cons hclosing, inAttributes_cons hcloser, hopener]
      split_ifs with hembedded hquote hequals hmark hstart
      · exact hopening hembedded
      · exact hstring hquote
      · rfl
      · exact markedName_change h c text
      · rw [hword]; rfl
      · exact congrArg (fun rest => Scan.mk [] rest mode _) hfront.symm

theorem inLogic_change (h : KeepsLines change) (hc : c ≠ '\n') (hstring : Lexeme.isQuote c = true →
    string mode c (change text) = (string mode c text).changed change) :
    inLogic mode (c :: change text) = (inLogic mode (c :: text)).changed change := by
  have hfront : change (c :: text) = c :: change text := h.plain c text hc
  have hcloser := closing?_change h mode (c :: text)
  have hopener := h.at?_change (c :: text)
  have hnumber : number mode (change (c :: text)) = _ := number_change h (c :: text)
  have hword : word mode (change (c :: text)) = _ := word_change h (c :: text)
  rw [hfront] at hcloser hopener hnumber hword
  cases hclosing : closing? mode (c :: text) with
  | some scan =>
      rw [hclosing] at hcloser
      rw [inLogic_of_closing? hclosing, inLogic_of_closing? hcloser]
  | none =>
      rw [hclosing] at hcloser
      rw [inLogic_cons hclosing, inLogic_cons hcloser, hopener, h.startsNumber_change]
      split_ifs with hembedded hlogic hquote hstart hpunctuation hoperator hletter
      · exact congrArg (fun rest => Scan.mk [] rest mode _) hfront.symm
      · exact congrArg (fun rest => Scan.mk [] rest mode _) hfront.symm
      · exact hstring hquote
      · exact hnumber
      · rfl
      · rw [h.operator_change]; rfl
      · exact hword
      · exact congrArg (fun rest => Scan.mk [] rest mode _) hfront.symm

/-- A scan of a line takes nothing of what comes behind the line, unless a string does. -/
theorem scan_change (h : KeepsLines change) (hmode : mode ≠ .text) (hc : c ≠ '\n') (hstring : Lexeme.isQuote c = true →
    string mode c (change text) = (string mode c text).changed change) :
    mode.scan (c :: change text) = (mode.scan (c :: text)).changed change := by
  cases mode with
  | text => exact absurd rfl hmode
  | questionAttributes => exact inAttributes_change h hc hstring
  | optionAttributes => exact inAttributes_change h hc hstring
  | embedded resume => exact inLogic_change h hc hstring
  | logic => exact inLogic_change h hc hstring

/-- A quote opens a string in every mode but free text. -/
theorem scan_quote (hmode : mode ≠ .text) (hquote : Lexeme.isQuote c = true) (text : List Char) :
    mode.scan (c :: text) = string mode c text := by
  have hclosing : closing? mode (c :: text) = none := by
    refine closing?_of_head mode ?_ text
    simp only [Lexeme.isQuote, Bool.or_eq_true, beq_iff_eq] at hquote
    rcases hquote with rfl | rfl <;> decide
  have hopener : Opener.at? (c :: text) ≠ some .embedded := by
    rw [Ne, Opener.at?_eq_some_iff, Opener.spelling, List.cons_prefix_cons]
    rintro ⟨rfl, -⟩
    cases hquote
  have hattributes : inAttributes mode (c :: text) = string mode c text := by
    rw [inAttributes_cons hclosing, if_neg hopener, if_pos hquote]
  have hlogic : inLogic mode (c :: text) = string mode c text := by
    rw [inLogic_cons hclosing, if_neg hopener, if_pos hquote]
  cases mode with
  | text => exact absurd rfl hmode
  | questionAttributes => exact hattributes
  | optionAttributes => exact hattributes
  | embedded resume => exact hlogic
  | logic => exact hlogic

/-- A string that is not closed is a fault. -/
theorem string_of_open (mode : Mode) {quote : Char} (h : ∀ after, (Lexeme.stringBody quote text).2 ≠ quote :: after) :
    (string mode quote text).outcome = .error .unterminatedString ∧ (string mode quote text).mode = mode := by
  unfold string
  generalize Lexeme.stringBody quote text = split at h
  obtain ⟨body, after⟩ := split
  dsimp only at h ⊢
  split
  · exact ⟨rfl, rfl⟩
  next c rest =>
    rw [if_neg (by rintro rfl; exact h rest rfl)]
    exact ⟨rfl, rfl⟩

end Scan

end Questionnaire
