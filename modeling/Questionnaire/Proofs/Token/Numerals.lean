import Questionnaire.Proofs.Token.Numbers

/-! The numerals of a source. Digits with at most one point always write a number, which has no sign, so that no lexer
ever finds fault with one. -/

namespace Questionnaire

/-- A number without a minus sign. -/
def Double.Plain (value : Double) : Prop := value.isNegative = false ∧ value ≠ .notANumber

namespace Numeral

theorem plain_ofRatio (num den : Nat) : (Double.ofRatio false num den).Plain := by
  unfold Double.ofRatio Double.zero
  dsimp only
  split_ifs <;> exact ⟨rfl, Double.noConfusion⟩

theorem plain_toDouble {numeral : Numeral} (h : numeral.negative = false) : numeral.toDouble.Plain := by
  obtain ⟨negative, coefficient, exponent⟩ := numeral
  subst h
  unfold toDouble Double.zero
  dsimp only
  split_ifs
  · exact ⟨rfl, Double.noConfusion⟩
  · exact ⟨rfl, Double.noConfusion⟩
  · exact ⟨rfl, Double.noConfusion⟩
  · exact plain_ofRatio _ _

/-- A sign, and the words that are read as numbers, begin with none of these. -/
def startsDecimal (c : Char) : Prop := c.isDigit = true ∨ c = '.'

theorem toLower_of_startsDecimal {c : Char} (h : startsDecimal c) : c.toLower = c := by
  rcases h with h | rfl
  · simp only [Char.isDigit, ge_iff_le, Bool.and_eq_true, decide_eq_true_eq, UInt32.le_iff_toNat_le] at h
    unfold Char.toLower
    rw [dif_neg]
    simp only [ge_iff_le, UInt32.le_iff_toNat_le]
    simp at h ⊢
    omega
  · rfl

theorem signed_of_digits {c : Char} (h : startsDecimal c) (rest : List Char) :
    signed (c :: rest) = (false, c :: rest) := by
  unfold signed
  split
  next heq =>
    obtain ⟨rfl, -⟩ := List.cons.inj heq
    rcases h with h | h <;> simp at h
  next heq =>
    obtain ⟨rfl, -⟩ := List.cons.inj heq
    rcases h with h | h <;> simp at h
  next => rfl

/-- A text that begins with a digit or a point behind its sign is none of the words for numbers. -/
theorem read?_of_signed {c : Char} {text rest : List Char} {negative : Bool}
    (hsigned : signed text = (negative, c :: rest))
    (hc : startsDecimal c) : Double.read? text = (unsigned? negative (c :: rest)).map toDouble := by
  have hlower := toLower_of_startsDecimal hc
  have hword : ∀ d word, ¬startsDecimal d →
      String.ofList ((c :: rest).map Char.toLower) ≠ String.ofList (d :: word) := by
    intro d word hd heq
    have hlist := congrArg String.toList heq
    rw [String.toList_ofList, String.toList_ofList, List.map_cons, hlower] at hlist
    obtain ⟨rfl, -⟩ := List.cons.inj hlist
    exact hd hc
  have hinf := hword 'i' ['n', 'f'] (by simp [startsDecimal])
  have hinfinity := hword 'i' ['n', 'f', 'i', 'n', 'i', 't', 'y'] (by simp [startsDecimal])
  have hnan := hword 'n' ['a', 'n'] (by simp [startsDecimal])
  rw [Double.read?, hsigned]
  dsimp only
  rw [if_neg (not_or.mpr ⟨hinf, hinfinity⟩), if_neg hnan]

/-- Digits, and digits around a point. -/
inductive Decimal : List Char → Prop where
  | whole {digits : List Char} (hdigits : ∀ c ∈ digits, c.isDigit = true) (hne : digits ≠ []) : Decimal digits
  | pointed {whole fraction : List Char} (hwhole : ∀ c ∈ whole, c.isDigit = true)
      (hfraction : ∀ c ∈ fraction, c.isDigit = true) (hne : whole ++ fraction ≠ []) :
      Decimal (whole ++ '.' :: fraction)

theorem decimal_number {text : List Char} (h : Lexeme.startsNumber text = true) : Decimal (Lexeme.number text).1 := by
  have hne := Lexeme.number_ne_nil h
  have hwhole : ∀ c ∈ text.takeWhile Char.isDigit, c.isDigit = true := fun c hc => List.mem_takeWhile_imp hc
  unfold Lexeme.number at hne ⊢
  dsimp only at hne ⊢
  split at hne
  next rest hpoint =>
    refine .pointed hwhole (fun c hc => List.mem_takeWhile_imp hc) fun hnil => ?_
    obtain ⟨hdigits, hfraction⟩ := List.append_eq_nil_iff.mp hnil
    -- without a digit before the point there is one behind it
    have htext : text = '.' :: rest := by
      rw [← List.takeWhile_append_dropWhile (p := Char.isDigit) (l := text), hdigits, hpoint]
      rfl
    subst htext
    cases rest with
    | nil => cases h
    | cons c rest =>
        rw [Lexeme.startsNumber_cons_cons, if_pos rfl] at h
        rw [List.takeWhile_cons_of_pos h] at hfraction
        cases hfraction
  next => exact .whole hwhole hne

theorem takeWhile_digits {digits : List Char} (h : ∀ c ∈ digits, c.isDigit = true) (rest : List Char) :
    (digits ++ '.' :: rest).takeWhile Char.isDigit = digits ∧
      (digits ++ '.' :: rest).dropWhile Char.isDigit = '.' :: rest :=
  ⟨by rw [List.takeWhile_append_of_pos h]; simp, by rw [List.dropWhile_append_of_pos h]; rfl⟩

theorem Decimal.unsigned?_eq {text : List Char} (h : Decimal text) :
    ∃ numeral, unsigned? false text = some numeral ∧ numeral.negative = false := by
  cases h with
  | whole hdigits hne =>
      have htake := List.takeWhile_eq_self_iff.mpr hdigits
      have hdrop := List.dropWhile_eq_nil_iff.mpr hdigits
      simp only [unsigned?, htake, hdrop, List.isEmpty_eq_false_iff.mpr hne]
      exact ⟨_, rfl, rfl⟩
  | @pointed whole fraction hwhole hfraction hne =>
      obtain ⟨htake, hdrop⟩ := takeWhile_digits hwhole fraction
      have hempty : (whole.isEmpty && fraction.isEmpty) = false := by
        cases whole with
        | nil => simpa using hne
        | cons => rfl
      simp only [unsigned?, htake, hdrop, List.takeWhile_eq_self_iff.mpr hfraction,
        List.dropWhile_eq_nil_iff.mpr hfraction, hempty]
      exact ⟨_, rfl, rfl⟩

theorem Decimal.exists_head {text : List Char} (h : Decimal text) : ∃ c rest, text = c :: rest ∧ startsDecimal c := by
  cases h with
  | whole hdigits hne =>
      obtain ⟨c, rest, rfl⟩ := List.exists_cons_of_ne_nil hne
      exact ⟨c, rest, rfl, .inl (hdigits c List.mem_cons_self)⟩
  | @pointed whole fraction hwhole =>
      cases whole with
      | nil => exact ⟨'.', fraction, rfl, .inr rfl⟩
      | cons c whole => exact ⟨c, _, rfl, .inl (hwhole c List.mem_cons_self)⟩

theorem Decimal.exists_read? {text : List Char} (h : Decimal text) :
    ∃ value, Double.read? text = some value ∧ value.Plain := by
  obtain ⟨numeral, hnumeral, hnegative⟩ := h.unsigned?_eq
  obtain ⟨c, rest, rfl, hc⟩ := h.exists_head
  rw [read?_of_signed (signed_of_digits hc _) hc, hnumeral]
  exact ⟨numeral.toDouble, rfl, plain_toDouble hnegative⟩

end Numeral

namespace Scan

/-- What the scan says of numbers: one that it answers can be read, and it finds fault with none. -/
def Numerate (scan : Scan) : Prop :=
  match scan.outcome with
  | .ok (.number, word) => ∃ value, Double.read? word.toList = some value ∧ value.Plain
  | .error (.invalidNumber _) => False
  | _ => True

variable {mode : Mode}

theorem numerate_lexeme {kind : TokenKind} {split : List Char × List Char} (h : kind ≠ .number) :
    (lexeme mode kind split).Numerate := by
  cases kind with
  | number => exact absurd rfl h
  | _ => trivial

theorem numerate_closing {text : List Char} {scan : Scan} (h : closing? mode text = some scan) : scan.Numerate := by
  obtain ⟨closer, rest, hcloser, -, rfl⟩ := exists_closer h
  refine numerate_lexeme ?_
  cases mode <;> cases hcloser <;> exact TokenKind.noConfusion

theorem numerate_opening (opener : Opener) (text : List Char) : (opening mode opener text).Numerate :=
  numerate_lexeme (by cases opener <;> decide)

theorem numerate_string (quote : Char) (text : List Char) : (string mode quote text).Numerate := by
  unfold string
  generalize Lexeme.stringBody quote text = split
  obtain ⟨body, after⟩ := split
  dsimp only
  split
  · trivial
  · split_ifs <;> trivial

theorem numerate_markedName (mark : Char) (rest : List Char) : (markedName mode mark rest).Numerate := by
  unfold markedName
  split
  · split_ifs <;> trivial
  · trivial

theorem numerate_number {text : List Char} (h : Lexeme.startsNumber text = true) : (number mode text).Numerate := by
  obtain ⟨value, hread, hplain⟩ := (Numeral.decimal_number h).exists_read?
  unfold number
  generalize Lexeme.number text = split at hread
  obtain ⟨literal, rest⟩ := split
  dsimp only at hread ⊢
  rw [hread, if_pos (by rfl)]
  exact ⟨value, by rw [String.toList_ofList, hread], hplain⟩

theorem numerate_inText (text : List Char) : (inText text).Numerate := by
  unfold inText
  split
  · exact numerate_opening _ _
  · trivial
  · trivial

theorem numerate_inAttributes (text : List Char) : (inAttributes mode text).Numerate := by
  unfold inAttributes
  split
  next hcloser => exact numerate_closing hcloser
  next => trivial
  next =>
    split_ifs
    · exact numerate_opening _ _
    · exact numerate_string _ _
    · trivial
    · exact numerate_markedName _ _
    · trivial
    · trivial

theorem numerate_inLogic (text : List Char) : (inLogic mode text).Numerate := by
  unfold inLogic
  split
  next hcloser => exact numerate_closing hcloser
  next => trivial
  next =>
    split_ifs with _ _ _ hnumber
    · trivial
    · trivial
    · exact numerate_string _ _
    · exact numerate_number hnumber
    · trivial
    · trivial
    · exact numerate_lexeme (kindOf_ne_number _)
    · trivial

theorem numerate_scan (mode : Mode) (text : List Char) : (mode.scan text).Numerate := by
  cases mode with
  | text => exact numerate_inText text
  | questionAttributes => exact numerate_inAttributes text
  | optionAttributes => exact numerate_inAttributes text
  | embedded => exact numerate_inLogic text
  | logic => exact numerate_inLogic text

end Scan

theorem Scan.item_eq_error {scan : Scan} {position : Position} {diagnostic : Diagnostic}
    (h : scan.item position = .error diagnostic) : scan.outcome = .error diagnostic.fault := by
  unfold Scan.item at h
  split at h
  · cases h
  next fault houtcome =>
    cases h
    exact houtcome

namespace Lexer

/-- No lexer finds fault with a number, wherever it stands. -/
theorem fault_ne_invalidNumber {lexer : Lexer} {diagnostic : Diagnostic} (h : lexer.next.1 = .error diagnostic)
    (literal : String) : diagnostic.fault ≠ .invalidNumber literal := by
  intro hfault
  have houtcome := Scan.item_eq_error h
  have hnumerate := Scan.numerate_scan lexer.mode (lexer.mode.skip lexer.cursor).rest
  rwa [Scan.Numerate, houtcome, hfault] at hnumerate

end Lexer

/-- The tokens for numbers can be read, as numbers without a sign. -/
theorem exists_read?_of_itemsOf {source : String} {token : Token} (h : .ok token ∈ itemsOf source)
    (hkind : token.kind = .number) : ∃ value, Double.read? token.text.toList = some value ∧ value.Plain := by
  obtain ⟨lexer, hnext⟩ := Lexer.exists_next_of_mem_items h
  have hnumerate := Scan.numerate_scan lexer.mode (lexer.mode.skip lexer.cursor).rest
  have houtcome := Scan.item_eq_ok hnext
  rw [hkind] at houtcome
  rwa [Scan.Numerate, houtcome] at hnumerate

theorem isSome_read?_of_itemsOf {source : String} {token : Token} (h : .ok token ∈ itemsOf source)
    (hkind : token.kind = .number) : (Double.read? token.text.toList).isSome = true := by
  obtain ⟨value, hvalue, -⟩ := exists_read?_of_itemsOf h hkind
  exact Option.isSome_of_eq_some hvalue

end Questionnaire
