import Questionnaire.Proofs.Number.Reading
import Questionnaire.Proofs.Legality.Legal

/-! The whole numbers of bounds. A text is taken for a whole number if the numeral it writes rounds to a double that is
whole, and for that whole number kept within 64 bits. The main statement says this of every text, and what follows for
the exact value: one that is a double by itself is whole or not as the text says, and a whole one within 64 bits always
passes. Others that are no whole numbers pass as well, and others within 64 bits are taken for their neighbours. -/

namespace Questionnaire

namespace Numeral

/-- The exact value. -/
def value (numeral : Numeral) : ℚ := if numeral.negative then -numeral.magnitude else numeral.magnitude

theorem value_eq_signedValue {numeral : Numeral} {whole : ℕ} (h : numeral.magnitude = whole) :
    numeral.value = signedValue numeral.negative whole := by
  rw [value, signedValue, h]
  split_ifs <;> simp

theorem exists_of_value {numeral : Numeral} {n : ℤ} (h : numeral.value = n) :
    ∃ whole : ℕ, numeral.magnitude = whole ∧ n = signedValue numeral.negative whole := by
  have hnonneg := numeral.magnitude_nonneg
  unfold value at h
  unfold signedValue
  split_ifs at h ⊢ with hnegative
  · have hmagnitude : numeral.magnitude = (-n : ℤ) := by
      push_cast
      linarith
    have hsign : 0 ≤ -n := by
      rw [hmagnitude] at hnonneg
      exact_mod_cast hnonneg
    obtain ⟨whole, hwhole⟩ := Int.eq_ofNat_of_zero_le hsign
    refine ⟨whole, ?_, by omega⟩
    rw [hmagnitude, hwhole, Int.cast_natCast]
  · rw [h] at hnonneg
    obtain ⟨whole, rfl⟩ := Int.eq_ofNat_of_zero_le (Int.cast_nonneg_iff.mp hnonneg)
    exact ⟨whole, h, rfl⟩

theorem value_eq_iff {numeral : Numeral} {P : ℤ → Prop} :
    (∃ n : ℤ, numeral.value = n ∧ P n) ↔
      ∃ whole : ℕ, numeral.magnitude = whole ∧ P (signedValue numeral.negative whole) := by
  constructor
  · rintro ⟨n, hvalue, hn⟩
    obtain ⟨whole, hwhole, rfl⟩ := exists_of_value hvalue
    exact ⟨whole, hwhole, hn⟩
  · rintro ⟨whole, hwhole, hn⟩
    exact ⟨_, value_eq_signedValue hwhole, hn⟩

end Numeral

namespace Legality

open Numeral Double

variable {text : String} {n : ℤ} {numeral : Numeral} {significand : ℕ} {exponent : ℤ}

/-- A whole number kept within 64 bits. -/
def kept (value : ℤ) : ℤ := max leastInteger (min greatestInteger value)

theorem integer?_of_read? {negative : Bool}
    (h : Double.read? (Text.trim text.toList) = some (.finite negative significand exponent)) :
    integer? text = some n ↔
      ∃ whole : ℕ, worth significand exponent = whole ∧ n = kept (signedValue negative whole) := by
  have hkept : ∀ whole : ℕ, kept (signedValue negative whole) =
      if negative = true then max (-Int.ofNat whole) leastInteger else min (Int.ofNat whole) greatestInteger := by
    intro whole
    unfold kept signedValue leastInteger greatestInteger
    split_ifs <;> simp only [Int.ofNat_eq_natCast] <;> omega
  simp only [← @whole?_eq_some_iff significand exponent negative]
  have hinteger : integer? text =
      (whole? (.finite negative significand exponent)).map fun whole => kept (signedValue negative whole) := by
    unfold integer?
    rw [h]
    cases hwhole : whole? (.finite negative significand exponent) with
    | none => simp [hwhole]
    | some whole => cases negative <;> simp [hwhole, hkept, isNegative]
  rw [hinteger, Option.map_eq_some_iff]
  simp only [eq_comm]

theorem integer?_of_writes (hwrites : Writes (Text.trim text.toList) numeral)
    (hrounds : Rounds numeral.magnitude significand exponent) (hgreatest : exponent ≤ greatestExponent) :
    integer? text = some n ↔
      ∃ whole : ℕ, worth significand exponent = whole ∧ n = kept (signedValue numeral.negative whole) :=
  integer?_of_read? (hwrites.read?_eq.trans (congrArg some (toDouble_eq_finite_iff.mpr ⟨rfl, hrounds, hgreatest⟩)))

theorem integer?_eq_some_iff :
    integer? text = some n ↔ ∃ numeral significand exponent, ∃ whole : ℕ, Writes (Text.trim text.toList) numeral ∧
      Rounds numeral.magnitude significand exponent ∧ exponent ≤ greatestExponent ∧
      worth significand exponent = whole ∧ n = kept (signedValue numeral.negative whole) := by
  constructor
  · intro h
    cases hread : Double.read? (Text.trim text.toList) with
    | none => simp [integer?, hread] at h
    | some x =>
        cases x with
        | infinite => simp [integer?, hread, whole?] at h
        | notANumber => simp [integer?, hread, whole?] at h
        | finite negative significand exponent =>
            obtain ⟨whole, hworth, hn⟩ := (integer?_of_read? hread).mp h
            obtain ⟨numeral, hwrites, hdouble⟩ := exists_writes_of_read? hread
            obtain ⟨rfl, hrounds, hgreatest⟩ := toDouble_eq_finite_iff.mp hdouble
            exact ⟨numeral, _, _, whole, hwrites, hrounds, hgreatest, hworth, hn⟩
  · rintro ⟨numeral, significand, exponent, whole, hwrites, hrounds, hgreatest, hworth, hn⟩
    exact (integer?_of_writes hwrites hrounds hgreatest).mpr ⟨whole, hworth, hn⟩

theorem valued_bound {a : Attribute} {token : Token} (hcustom : a.custom = false)
    (hname : a.name ∈ Vocabulary.selectionBounds ++ Vocabulary.valueBounds) (hvalue : a.value = some (.string token)) :
    valued (.attr a) = .ok () ↔ ∃ n, integer? token.text = some n := by
  have horders : ∀ word ∈ Vocabulary.selectionBounds ++ Vocabulary.valueBounds,
      word ∉ Vocabulary.rowOrders ++ Vocabulary.columnOrders := by decide
  have hbuiltin : valued (.attr a) = boundValue a := by
    rw [valued, hcustom, if_neg Bool.false_ne_true, builtinValue]
    simp only [List.contains_iff_mem]
    rw [if_neg (horders _ hname), if_pos hname]
  rw [hbuiltin, boundValue_eq_ok, ← Option.isSome_iff_exists, hvalue]
  simp

/-- The whole number of a text is that of the nearest double, kept within 64 bits. -/
theorem integer?_rounded (text : String) :
    (∀ n, integer? text = some n ↔ ∃ numeral significand exponent, ∃ whole : ℕ,
      Writes (Text.trim text.toList) numeral ∧ Nearest numeral.magnitude significand exponent ∧
      exponent ≤ greatestExponent ∧ worth significand exponent = whole ∧
      n = kept (signedValue numeral.negative whole)) ∧
    (∀ numeral significand exponent, Writes (Text.trim text.toList) numeral →
      Canonical significand exponent → exponent ≤ greatestExponent → numeral.magnitude = worth significand exponent →
      ∀ n, integer? text = some n ↔ ∃ whole : ℤ, numeral.value = whole ∧ n = kept whole) ∧
    (∀ numeral, ∀ whole : ℤ, Writes (Text.trim text.toList) numeral → numeral.value = whole →
      leastInteger ≤ whole → whole ≤ greatestInteger → ∃ n, integer? text = some n) ∧
    ∀ (a : Attribute) (token : Token), a.custom = false →
      a.name ∈ Vocabulary.selectionBounds ++ Vocabulary.valueBounds → a.value = some (.string token) →
      token.text = text → (valued (.attr a) = .ok () ↔ ∃ n, integer? text = some n) := by
  refine ⟨fun n => ?_, fun numeral significand exponent hwrites hcanonical hgreatest hworth n => ?_,
    fun numeral whole hwrites hvalue hleast hgreatest => ?_, fun a token hcustom hname hvalue htext => ?_⟩
  · simp only [integer?_eq_some_iff, rounds_iff_nearest (magnitude_nonneg _)]
  · have hrounds : Rounds numeral.magnitude significand exponent := hworth ▸ hcanonical.rounds_worth
    rw [integer?_of_writes hwrites hrounds hgreatest, value_eq_iff, hworth]
  · obtain ⟨size, hsize, rfl⟩ := exists_of_value hvalue
    have hless : numeral.magnitude < 2 ^ 1023 := by
      have hle : size ≤ 2 ^ 63 := by
        unfold signedValue leastInteger at hleast
        unfold signedValue greatestInteger at hgreatest
        split_ifs at hleast hgreatest <;> omega
      calc numeral.magnitude ≤ 2 ^ 63 := by rw [hsize]; exact_mod_cast hle
        _ < 2 ^ 1023 := pow_lt_pow_right₀ one_lt_two (by decide)
    obtain ⟨significand, exponent, hrounds, hbound⟩ := exists_rounds numeral.magnitude_nonneg hless
    obtain ⟨rounded, hrounded⟩ := (hsize ▸ hrounds).exists_whole
    exact ⟨_, (integer?_of_writes hwrites hrounds hbound).mpr ⟨rounded, hrounded, rfl⟩⟩
  · rw [← htext]
    exact valued_bound hcustom hname hvalue

theorem integer?_rounded_power :
    Writes (Text.trim " -4.50e1\n".toList) ⟨true, 450, -1⟩ ∧ Canonical (45 * 2 ^ 47) (-47) ∧
      integer? " -4.50e1\n" = some (-45) := by
  have hwrites : Writes (Text.trim " -4.50e1\n".toList) ⟨true, 450, -1⟩ := by decide +kernel
  have hcanonical : Canonical (45 * 2 ^ 47) (-47) := ⟨by decide, by decide, .inl (by decide)⟩
  have hworth : (Numeral.mk true 450 (-1)).magnitude = worth (45 * 2 ^ 47) (-47) := by
    norm_num [magnitude, worth]
  have hvalue : (Numeral.mk true 450 (-1)).value = (-45 : ℤ) := by norm_num [value, magnitude]
  exact ⟨hwrites, hcanonical,
    ((integer?_rounded _).2.1 _ _ _ hwrites hcanonical (by decide) hworth (-45)).mpr ⟨-45, hvalue, by decide⟩⟩

/-- A text is taken for one whose value is less than one. -/
theorem exists_integer?_of_fraction :
    ∃ text, integer? text = some 1 ∧
      ¬∃ numeral, Writes (Text.trim text.toList) numeral ∧ numeral.value = (1 : ℤ) := by
  refine ⟨"0.99999999999999999999", by decide +kernel, ?_⟩
  rintro ⟨numeral, hwrites, hvalue⟩
  have hfraction : Writes (Text.trim "0.99999999999999999999".toList) ⟨false, 99999999999999999999, -20⟩ := by
    decide +kernel
  rw [hwrites.unique hfraction] at hvalue
  norm_num [value, magnitude] at hvalue

end Legality

end Questionnaire
