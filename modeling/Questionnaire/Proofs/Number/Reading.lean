import Questionnaire.Proofs.Number.Rounding
import Questionnaire.Proofs.Token.Numerals

/-! The reading of numerals. A text writes a numeral by a sign, digits with at most one point, and a power of ten, the
first and the last optional. The main statement says that a text is read as a finite double just if it writes a numeral
whose exact value rounds to that double, however many digits it has. -/

namespace Questionnaire

namespace Numeral

/-- The exact value without the sign. -/
def magnitude (numeral : Numeral) : ℚ := numeral.coefficient * 10 ^ numeral.exponent

def signedValue (negative : Bool) (value : ℕ) : ℤ := if negative then -value else value

/-- A sign, and whether it is a minus. -/
inductive Sign : List Char → Bool → Prop where
  | none : Sign [] false
  | plus : Sign ['+'] false
  | minus : Sign ['-'] true

/-- Digits with at most one point: the number they write without it, and how many stand behind it. -/
inductive Mantissa : List Char → ℕ → ℕ → Prop where
  | whole {digits : List Char} (hdigits : ∀ c ∈ digits, c.isDigit = true) (hne : digits ≠ []) :
      Mantissa digits (digitsValue digits) 0
  | pointed {whole fraction : List Char} (hwhole : ∀ c ∈ whole, c.isDigit = true)
      (hfraction : ∀ c ∈ fraction, c.isDigit = true) (hne : whole ++ fraction ≠ []) :
      Mantissa (whole ++ '.' :: fraction) (digitsValue (whole ++ fraction)) fraction.length

/-- A power of ten behind its mark, or none. -/
inductive Power : List Char → ℤ → Prop where
  | none : Power [] 0
  | marked {mark : Char} {sign digits : List Char} {negative : Bool} (hmark : mark = 'e' ∨ mark = 'E')
      (hsign : Sign sign negative) (hdigits : ∀ c ∈ digits, c.isDigit = true) (hne : digits ≠ []) :
      Power (mark :: (sign ++ digits)) (signedValue negative (digitsValue digits))

/-- The text writes the numeral. -/
inductive Writes : List Char → Numeral → Prop where
  | mk {sign mantissa power : List Char} {negative : Bool} {coefficient places : ℕ} {exponent : ℤ}
      (hsign : Sign sign negative) (hmantissa : Mantissa mantissa coefficient places)
      (hpower : Power power exponent) :
      Writes (sign ++ (mantissa ++ power)) ⟨negative, coefficient, exponent - places⟩

variable {text : List Char} {negative : Bool} {numeral : Numeral}

theorem Sign.signed_append {sign : List Char} (h : Sign sign negative) {c : Char} (hc : startsDecimal c)
    (rest : List Char) : signed (sign ++ c :: rest) = (negative, c :: rest) := by
  cases h with
  | none => exact signed_of_digits hc rest
  | plus => rfl
  | minus => rfl

theorem exists_sign (text : List Char) : ∃ sign, Sign sign (signed text).1 ∧ text = sign ++ (signed text).2 := by
  unfold signed
  split
  · exact ⟨_, .minus, rfl⟩
  · exact ⟨_, .plus, rfl⟩
  · exact ⟨_, .none, rfl⟩

theorem Mantissa.exists_head {coefficient places : ℕ} (h : Mantissa text coefficient places) :
    ∃ c rest, text = c :: rest ∧ startsDecimal c := by
  cases h with
  | whole hdigits hne => exact (Decimal.whole hdigits hne).exists_head
  | pointed hwhole hfraction hne => exact (Decimal.pointed hwhole hfraction hne).exists_head

theorem exponent?_eq_some_iff {exponent : ℤ} :
    exponent? text = some exponent ↔ ∃ sign digits negative, text = sign ++ digits ∧ Sign sign negative ∧
      (∀ c ∈ digits, c.isDigit = true) ∧ digits ≠ [] ∧ exponent = signedValue negative (digitsValue digits) := by
  constructor
  · intro h
    obtain ⟨sign, hsign, htext⟩ := exists_sign text
    unfold exponent? at h
    generalize signed text = split at h hsign htext
    obtain ⟨negative, digits⟩ := split
    dsimp only at h hsign htext
    by_cases hdigits : (digits.isEmpty || !digits.all Char.isDigit) = true
    · rw [if_pos hdigits] at h
      cases h
    · rw [if_neg hdigits] at h
      rw [Bool.or_eq_true, not_or, List.isEmpty_iff, Bool.not_eq_true, Bool.not_eq_false', List.all_eq_true] at hdigits
      exact ⟨sign, digits, negative, htext, hsign, hdigits.2, hdigits.1, (Option.some.inj h).symm⟩
  · rintro ⟨sign, digits, negative, rfl, hsign, hdigits, hne, rfl⟩
    obtain ⟨c, rest, rfl⟩ := List.exists_cons_of_ne_nil hne
    have hall : (c :: rest).all Char.isDigit = true := List.all_eq_true.mpr hdigits
    rw [exponent?, hsign.signed_append (.inl (hdigits c List.mem_cons_self))]
    simp only [List.isEmpty_cons, hall, Bool.not_true, Bool.or_self, Bool.false_eq_true, if_false]
    rfl

theorem Power.head_not_digit {exponent : ℤ} (h : Power text exponent) :
    ∀ c ∈ text.head?, c.isDigit = false ∧ c ≠ '.' := by
  cases h with
  | none => simp
  | marked hmark => 
      rintro c ⟨⟩
      rcases hmark with rfl | rfl <;> decide

theorem takeWhile_power {power digits : List Char} {exponent : ℤ} (h : Power power exponent)
    (hdigits : ∀ c ∈ digits, c.isDigit = true) :
    (digits ++ power).takeWhile Char.isDigit = digits ∧ (digits ++ power).dropWhile Char.isDigit = power := by
  rw [List.takeWhile_append_of_pos hdigits, List.dropWhile_append_of_pos hdigits]
  cases power with
  | nil => exact ⟨List.append_nil _, rfl⟩
  | cons c power =>
      have hc : ¬c.isDigit = true := by simp [(h.head_not_digit c rfl).1]
      rw [List.takeWhile_cons_of_neg hc, List.dropWhile_cons_of_neg hc, List.append_nil]
      exact ⟨rfl, rfl⟩

/-- The power of ten that stands behind the digits. -/
def power? : List Char → Option ℤ
  | [] => some 0
  | mark :: power => if mark = 'e' ∨ mark = 'E' then exponent? power else none

theorem power?_eq_some_iff {exponent : ℤ} : power? text = some exponent ↔ Power text exponent := by
  constructor
  · intro h
    unfold power? at h
    split at h
    · cases h
      exact .none
    · split_ifs at h with hmark
      obtain ⟨sign, digits, negative, rfl, hsign, hdigits, hne, rfl⟩ := exponent?_eq_some_iff.mp h
      exact .marked hmark hsign hdigits hne
  · intro h
    cases h with
    | none => rfl
    | @marked mark sign digits negative hmark hsign hdigits hne =>
        rw [power?, if_pos hmark]
        exact exponent?_eq_some_iff.mpr ⟨sign, digits, negative, rfl, hsign, hdigits, hne, rfl⟩

theorem unsigned?_whole (h : ∀ rest, text.dropWhile Char.isDigit ≠ '.' :: rest) :
    unsigned? negative text =
      if (text.takeWhile Char.isDigit).isEmpty then none
      else (power? (text.dropWhile Char.isDigit)).map fun exponent =>
        ⟨negative, digitsValue (text.takeWhile Char.isDigit), exponent - (0 : ℕ)⟩ := by
  unfold unsigned?
  generalize text.dropWhile Char.isDigit = after at h
  cases after with
  | nil => simp only [List.isEmpty_nil, Bool.and_true, List.append_nil, List.length_nil, power?]
  | cons c rest =>
      have hc : c ≠ '.' := fun heq => h rest (heq ▸ rfl)
      simp only [List.isEmpty_nil, Bool.and_true, List.append_nil, List.length_nil, power?]

theorem unsigned?_pointed {rest : List Char} (h : text.dropWhile Char.isDigit = '.' :: rest) :
    unsigned? negative text =
      if (text.takeWhile Char.isDigit).isEmpty && (rest.takeWhile Char.isDigit).isEmpty then none
      else (power? (rest.dropWhile Char.isDigit)).map fun exponent =>
        ⟨negative, digitsValue (text.takeWhile Char.isDigit ++ rest.takeWhile Char.isDigit),
          exponent - (rest.takeWhile Char.isDigit).length⟩ := by
  unfold unsigned?
  simp only [h]
  rfl

theorem unsigned?_eq_some_iff :
    unsigned? negative text = some numeral ↔ ∃ mantissa power coefficient places exponent,
      text = mantissa ++ power ∧ Mantissa mantissa coefficient places ∧ Power power exponent ∧
      numeral = ⟨negative, coefficient, exponent - (places : ℕ)⟩ := by
  have hdigits : ∀ text : List Char, ∀ c ∈ text.takeWhile Char.isDigit, c.isDigit = true :=
    fun text c hc => List.mem_takeWhile_imp hc
  constructor
  · intro h
    have htext := List.takeWhile_append_dropWhile (p := Char.isDigit) (l := text)
    by_cases hpoint : ∃ rest, text.dropWhile Char.isDigit = '.' :: rest
    · obtain ⟨rest, hrest⟩ := hpoint
      rw [unsigned?_pointed hrest] at h
      split_ifs at h with hempty
      obtain ⟨exponent, hpower, rfl⟩ := Option.map_eq_some_iff.mp h
      rw [Bool.and_eq_true, List.isEmpty_iff, List.isEmpty_iff, ← List.append_eq_nil_iff] at hempty
      refine ⟨_, _, _, _, exponent, ?_, .pointed (hdigits text) (hdigits rest) hempty,
        power?_eq_some_iff.mp hpower, rfl⟩
      rw [List.append_assoc, List.cons_append, List.takeWhile_append_dropWhile, ← hrest, htext]
    · rw [unsigned?_whole (not_exists.mp hpoint)] at h
      split_ifs at h with hempty
      obtain ⟨exponent, hpower, rfl⟩ := Option.map_eq_some_iff.mp h
      rw [List.isEmpty_iff] at hempty
      exact ⟨_, _, _, _, exponent, htext.symm, .whole (hdigits text) hempty, power?_eq_some_iff.mp hpower, rfl⟩
  · rintro ⟨mantissa, power, coefficient, places, exponent, rfl, hmantissa, hpower, rfl⟩
    have hpower? := power?_eq_some_iff.mpr hpower
    cases hmantissa with
    | whole hall hne =>
        obtain ⟨htake, hdrop⟩ := takeWhile_power hpower hall
        rw [unsigned?_whole, htake, hdrop, hpower?, if_neg (mt List.isEmpty_iff.mp hne)]
        · rfl
        · rintro rest heq
          rw [hdrop] at heq
          rw [heq] at hpower
          exact (hpower.head_not_digit '.' rfl).2 rfl
    | @pointed whole fraction hwhole hfraction hne =>
        obtain ⟨htake, hdrop⟩ := takeWhile_digits hwhole (fraction ++ power)
        obtain ⟨htake', hdrop'⟩ := takeWhile_power hpower hfraction
        rw [List.append_assoc, List.cons_append, unsigned?_pointed hdrop, htake, htake', hdrop', hpower?, if_neg]
        · rfl
        · rwa [Bool.and_eq_true, List.isEmpty_iff, List.isEmpty_iff, ← List.append_eq_nil_iff]

/-- What a text writes is found by taking its sign off and reading the rest. -/
theorem writes_iff : Writes text numeral ↔ unsigned? (signed text).1 (signed text).2 = some numeral := by
  constructor
  · rintro ⟨hsign, hmantissa, hpower⟩
    obtain ⟨c, rest, rfl, hc⟩ := hmantissa.exists_head
    rw [List.cons_append, hsign.signed_append hc]
    exact unsigned?_eq_some_iff.mpr ⟨_, _, _, _, _, (List.cons_append ..).symm, hmantissa, hpower, rfl⟩
  · intro h
    obtain ⟨sign, hsign, htext⟩ := exists_sign text
    generalize signed text = split at h hsign htext
    obtain ⟨mantissa, power, _, _, _, hunsigned, hmantissa, hpower, rfl⟩ := unsigned?_eq_some_iff.mp h
    rw [htext, hunsigned]
    exact ⟨hsign, hmantissa, hpower⟩

instance : Decidable (Writes text numeral) := decidable_of_iff _ writes_iff.symm

theorem Writes.unique {other : Numeral} (h : Writes text numeral) (hother : Writes text other) : numeral = other :=
  Option.some.inj ((writes_iff.mp h).symm.trans (writes_iff.mp hother))

theorem Writes.read?_eq (h : Writes text numeral) : Double.read? text = some numeral.toDouble := by
  have hnumeral := writes_iff.mp h
  obtain ⟨hsign, hmantissa, -⟩ := h
  obtain ⟨c, rest, rfl, hc⟩ := hmantissa.exists_head
  rw [List.cons_append, hsign.signed_append hc] at hnumeral
  rw [List.cons_append, read?_of_signed (hsign.signed_append hc _) hc, hnumeral]
  rfl

/-- A finite number is read from a numeral only. -/
theorem exists_writes_of_read? {significand : ℕ} {exponent : ℤ}
    (h : Double.read? text = some (.finite negative significand exponent)) :
    ∃ numeral, Writes text numeral ∧ numeral.toDouble = .finite negative significand exponent := by
  unfold Double.read? at h
  dsimp only at h
  split_ifs at h
  · cases h
  · cases h
  · obtain ⟨numeral, hnumeral, hdouble⟩ := Option.map_eq_some_iff.mp h
    exact ⟨numeral, writes_iff.mpr hnumeral, hdouble⟩

theorem magnitude_nonneg (numeral : Numeral) : 0 ≤ numeral.magnitude := by
  unfold magnitude
  positivity

theorem toDigits_bounds {n : ℕ} (h : n ≠ 0) :
    10 ^ ((Nat.toDigits 10 n).length - 1) ≤ n ∧ n < 10 ^ (Nat.toDigits 10 n).length := by
  refine ⟨?_, (Nat.length_toDigits_le_iff (by decide) Nat.length_toDigits_pos).mp le_rfl⟩
  rcases Nat.eq_zero_or_pos ((Nat.toDigits 10 n).length - 1) with hzero | hpos
  · rw [hzero, pow_zero]
    exact Nat.pos_of_ne_zero h
  · refine not_lt.mp fun hlt => ?_
    have := (Nat.length_toDigits_le_iff (by decide) hpos).mpr hlt
    omega

/-- The number of digits of a coefficient tells between which powers of ten a numeral lies. -/
theorem magnitude_bounds (h : numeral.coefficient ≠ 0) :
    (10 : ℚ) ^ ((Nat.toDigits 10 numeral.coefficient).length + numeral.exponent - 1) ≤ numeral.magnitude ∧
      numeral.magnitude < 10 ^ ((Nat.toDigits 10 numeral.coefficient).length + numeral.exponent) := by
  obtain ⟨hlow, hhigh⟩ := toDigits_bounds h
  have hlength : ((Nat.toDigits 10 numeral.coefficient).length : ℤ) + numeral.exponent - 1 =
      ((Nat.toDigits 10 numeral.coefficient).length - 1 : ℕ) + numeral.exponent := by
    rw [Nat.cast_sub Nat.length_toDigits_pos]
    push_cast
    ring
  rw [hlength, zpow_add₀ (by norm_num), zpow_add₀ (by norm_num), zpow_natCast, zpow_natCast, magnitude]
  constructor
  · gcongr
    exact_mod_cast hlow
  · gcongr
    exact_mod_cast hhigh

/-- The greatest double and half of the least one lie between these powers of ten. -/
theorem double_range : (2 : ℚ) ^ 1024 < 10 ^ 309 ∧ (2 : ℚ) ^ 1075 < 10 ^ 324 := by
  have hgreatest : 2 ^ 1024 < 10 ^ 309 := by decide +kernel
  have hleast : 2 ^ 1075 < 10 ^ 324 := by decide +kernel
  exact ⟨mod_cast hgreatest, mod_cast hleast⟩

open Double in
/-- A numeral is taken to the double whose interval its exact value lies in. -/
theorem toDouble_eq_finite_iff {significand : ℕ} {exponent : ℤ} :
    numeral.toDouble = .finite negative significand exponent ↔
      negative = numeral.negative ∧ Rounds numeral.magnitude significand exponent ∧ exponent ≤ greatestExponent := by
  have hzero (hless : numeral.magnitude / 2 ^ leastExponent < 1 / 2) :
      zero numeral.negative = .finite negative significand exponent ↔
        negative = numeral.negative ∧ Rounds numeral.magnitude significand exponent ∧ exponent ≤ greatestExponent := by
    rw [zero, finite.injEq, rounds_iff_zero numeral.magnitude_nonneg hless]
    constructor
    · rintro ⟨rfl, rfl, rfl⟩
      exact ⟨rfl, ⟨rfl, rfl⟩, by decide⟩
    · rintro ⟨rfl, ⟨rfl, rfl⟩, -⟩
      exact ⟨rfl, rfl, rfl⟩
  unfold toDouble
  dsimp only
  split_ifs with hcoefficient hlarge hsmall
  · refine hzero ?_
    rw [magnitude, hcoefficient]
    norm_num
  · -- the numeral is beyond the interval of the greatest double
    refine iff_of_false (by rintro ⟨⟩) ?_
    rintro ⟨-, hrounds, hgreatest⟩
    have hlow := (magnitude_bounds hcoefficient).1
    have hbelow := (div_le_iff₀ (by positivity)).mp hrounds.below
    have hbound := hrounds.canonical.add_one_le
    have hscale : (2 : ℚ) ^ exponent ≤ 2 ^ greatestExponent := zpow_le_zpow_right₀ one_le_two hgreatest
    have hpower : (10 : ℚ) ^ (309 : ℤ) ≤
        10 ^ ((Nat.toDigits 10 numeral.coefficient).length + numeral.exponent - 1) :=
      zpow_le_zpow_right₀ (by norm_num) (by rw [Int.ofNat_eq_natCast] at hlarge; omega)
    have hless : numeral.magnitude < 10 ^ (309 : ℤ) := by
      calc numeral.magnitude ≤ (significand + 1 / 2) * 2 ^ exponent := hbelow
        _ ≤ 2 ^ 53 * 2 ^ greatestExponent := by gcongr; linarith
        _ = 2 ^ 1024 := by rw [greatestExponent, zpow_ofNat, ← pow_add]
        _ < 10 ^ (309 : ℤ) := double_range.1
    linarith
  · -- the numeral is under half of the least positive double
    refine hzero ?_
    have hhigh := (magnitude_bounds hcoefficient).2
    have hpower : (10 : ℚ) ^ ((Nat.toDigits 10 numeral.coefficient).length + numeral.exponent) ≤
        10 ^ (-324 : ℤ) :=
      zpow_le_zpow_right₀ (by norm_num) (by rw [Int.ofNat_eq_natCast] at hsmall; omega)
    rw [div_lt_iff₀ (by positivity)]
    calc numeral.magnitude < 10 ^ (-324 : ℤ) := hhigh.trans_le hpower
      _ = 1 / 10 ^ 324 := by rw [zpow_neg, one_div, zpow_ofNat]
      _ < 1 / 2 ^ 1075 := one_div_lt_one_div_of_lt (by positivity) double_range.2
      _ = 1 / 2 * 2 ^ leastExponent := by
        rw [leastExponent, zpow_neg, zpow_ofNat, ← one_div, one_div_mul_one_div_rev, ← pow_succ]
  · have hratio := scaled_ratio 10 numeral.coefficient 1 (-numeral.exponent)
    rw [neg_neg, one_mul, Nat.cast_one, div_one, zpow_neg, div_inv_eq_mul] at hratio
    have hden : 0 < Nat.pow 10 (-numeral.exponent).toNat := Nat.pow_pos (by decide)
    rw [ofRatio_eq_finite_iff hden, hratio]
    rfl

end Numeral

end Questionnaire
