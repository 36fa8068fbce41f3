import Questionnaire.Proofs.Number.Shortest
import Questionnaire.Number.Written

/-! Numbers read back from their text. A whole number is written with all its digits and any other by the shortest
decimal, in both cases around a point; what is written has a value that rounds to the number. The main statement says
that the text of every double is read as that double, so that no two have one text. -/

namespace Questionnaire

namespace Numeral

theorem digitsValue_eq (digits : List Char) : digitsValue digits = Nat.ofDigitChars 10 digits 0 := by
  unfold digitsValue Nat.ofDigitChars
  simp only [Nat.mul_comm 10]

theorem digitsValue_toDigits (n : ℕ) : digitsValue (Nat.toDigits 10 n) = n := by
  rw [digitsValue_eq, Nat.ofDigitChars_toDigits (by decide) (by decide)]

theorem foldl_digits (digits : List Char) (start : ℕ) :
    digits.foldl (fun value digit => value * 10 + (digit.toNat - '0'.toNat)) start =
      start * 10 ^ digits.length + digitsValue digits := by
  induction digits using List.reverseRecOn with
  | nil => simp [digitsValue]
  | append_singleton digits digit ih =>
      rw [digitsValue, List.foldl_append, List.foldl_append, ih, ← digitsValue, List.foldl_cons, List.foldl_nil,
        List.foldl_cons, List.foldl_nil, List.length_append, List.length_singleton, pow_succ]
      ring

theorem digitsValue_append (left right : List Char) :
    digitsValue (left ++ right) = digitsValue left * 10 ^ right.length + digitsValue right := by
  rw [digitsValue, List.foldl_append, foldl_digits, ← digitsValue]

theorem digitsValue_zeros (count : ℕ) : digitsValue (List.replicate count '0') = 0 := by
  induction count with
  | zero => rfl
  | succ count ih =>
      rw [List.replicate_succ', digitsValue_append, ih]
      rfl

theorem isDigit_zeros (count : ℕ) : ∀ c ∈ List.replicate count '0', c.isDigit = true := by
  intro c hc
  rw [List.eq_of_mem_replicate hc]
  rfl

/-- A mantissa alone writes a numeral, with any sign before it. -/
theorem Mantissa.writes {sign mantissa : List Char} {negative : Bool} {coefficient places : ℕ}
    (hsign : Sign sign negative) (h : Mantissa mantissa coefficient places) :
    Writes (sign ++ mantissa) ⟨negative, coefficient, -places⟩ := by
  have hwrites := Writes.mk hsign h .none
  rwa [List.append_nil, zero_sub] at hwrites

end Numeral

namespace NumberLayout

open Numeral

theorem toList_zeros (count : ℕ) : (zeros count).toList = List.replicate count '0' := String.toList_ofList

/-- The digits are written around the point, with zeros where it lies outside of them. -/
theorem exists_mantissa_aroundPoint {digits : List Char} (hdigits : ∀ c ∈ digits, c.isDigit = true) (hne : digits ≠ [])
    (point : ℤ) :
    ∃ coefficient places, Mantissa (plain.aroundPoint digits point).toList coefficient places ∧
      (coefficient : ℚ) * 10 ^ (-places : ℤ) = digitsValue digits * 10 ^ (point - digits.length) := by
  unfold aroundPoint
  split_ifs with hpoint
  · have hfraction : ∀ c ∈ List.replicate (-point).toNat '0' ++ digits, c.isDigit = true := by
      intro c hc
      exact (List.mem_append.mp hc).elim (isDigit_zeros _ c) (hdigits c)
    have hmantissa := Mantissa.pointed (List.forall_mem_singleton.mpr (by decide : '0'.isDigit = true)) hfraction (by simp)
    have hcoefficient : digitsValue (['0'] ++ (List.replicate (-point).toNat '0' ++ digits)) = digitsValue digits := by
      rw [← List.append_assoc, ← List.replicate_one, ← List.replicate_add, digitsValue_append, digitsValue_zeros,
        zero_mul, zero_add]
    have htext : ("0." ++ zeros (-point).toNat ++ String.ofList digits).toList =
        ['0'] ++ '.' :: (List.replicate (-point).toNat '0' ++ digits) := by
      rw [String.toList_append, String.toList_append, toList_zeros, String.toList_ofList]
      simp
    rw [htext]
    refine ⟨_, _, hmantissa, ?_⟩
    rw [hcoefficient, List.length_append, List.length_replicate]
    congr 2
    omega
  · dsimp only
    split_ifs with hlength
    · have hall : ∀ c ∈ digits ++ List.replicate (point.toNat - digits.length) '0', c.isDigit = true := by
        intro c hc
        exact (List.mem_append.mp hc).elim (hdigits c) (isDigit_zeros _ c)
      have hmantissa := Mantissa.whole hall (by simp [hne])
      have htext : (String.ofList digits ++ zeros (point.toNat - digits.length) ++ plain.wholeMark).toList =
          digits ++ List.replicate (point.toNat - digits.length) '0' := by
        rw [String.toList_append, String.toList_append, toList_zeros, String.toList_ofList, plain]
        simp
      rw [htext]
      refine ⟨_, _, hmantissa, ?_⟩
      rw [digitsValue_append, digitsValue_zeros, List.length_replicate, add_zero, Nat.cast_zero, neg_zero, zpow_zero,
        mul_one]
      push_cast
      rw [← zpow_natCast]
      congr 2
      omega
    · have hmantissa := Mantissa.pointed (fun c hc => hdigits c (List.mem_of_mem_take hc))
        (fun c hc => hdigits c (List.mem_of_mem_drop hc)) (by rwa [List.take_append_drop point.toNat])
      have htext : (String.ofList (digits.take point.toNat) ++ "." ++ String.ofList (digits.drop point.toNat)).toList =
          digits.take point.toNat ++ '.' :: digits.drop point.toNat := by
        rw [String.toList_append, String.toList_append, String.toList_ofList, String.toList_ofList]
        simp
      rw [htext]
      refine ⟨_, _, hmantissa, ?_⟩
      rw [List.take_append_drop, List.length_drop]
      congr 2
      omega

/-- The digits of a number without the zeros at its end, which are counted. -/
theorem significantDigits_spec {coefficient : ℕ} (h : coefficient ≠ 0) :
    (∀ c ∈ (significantDigits coefficient).1, c.isDigit = true) ∧ (significantDigits coefficient).1 ≠ [] ∧
      digitsValue (significantDigits coefficient).1 * 10 ^ (significantDigits coefficient).2 = coefficient := by
  have hzeros : (Nat.toDigits 10 coefficient).reverse.takeWhile (· == '0') =
      List.replicate (significantDigits coefficient).2 '0' :=
    List.eq_replicate_iff.mpr ⟨rfl, fun c hc => by simpa using List.mem_takeWhile_imp hc⟩
  have hsplit : (significantDigits coefficient).1 ++ List.replicate (significantDigits coefficient).2 '0' =
      Nat.toDigits 10 coefficient := by
    rw [← List.reverse_inj, List.reverse_append, List.reverse_replicate, ← hzeros, significantDigits,
      List.reverse_reverse, List.takeWhile_append_dropWhile]
  have hvalue : digitsValue (significantDigits coefficient).1 * 10 ^ (significantDigits coefficient).2 = coefficient := by
    have hdigits := digitsValue_toDigits coefficient
    rwa [← hsplit, digitsValue_append, digitsValue_zeros, List.length_replicate, add_zero] at hdigits
  refine ⟨fun c hc => ?_, fun hnil => ?_, hvalue⟩
  · have hmem : c ∈ Nat.toDigits 10 coefficient := hsplit ▸ List.mem_append_left _ hc
    exact Nat.isDigit_of_mem_toDigits (by decide) (by decide) hmem
  · rw [hnil] at hvalue
    exact h (by rw [← hvalue]; exact Nat.zero_mul _)

theorem exists_mantissa_decimal (value : Decimal) (h : value.coefficient ≠ 0) :
    ∃ coefficient places, Mantissa (plain.decimal value).toList coefficient places ∧
      (coefficient : ℚ) * 10 ^ (-places : ℤ) = value.coefficient * 10 ^ value.exponent := by
  obtain ⟨hdigits, hne, hvalue⟩ := significantDigits_spec h
  obtain ⟨coefficient, places, hmantissa, hworth⟩ := exists_mantissa_aroundPoint hdigits hne
    (value.exponent + Int.ofNat (significantDigits value.coefficient).2 +
      Int.ofNat (significantDigits value.coefficient).1.length)
  refine ⟨coefficient, places, hmantissa, hworth.trans ?_⟩
  have hpoint : value.exponent + Int.ofNat (significantDigits value.coefficient).2 +
      Int.ofNat (significantDigits value.coefficient).1.length - (significantDigits value.coefficient).1.length =
      (significantDigits value.coefficient).2 + value.exponent := by
    simp only [Int.ofNat_eq_natCast]
    omega
  rw [hpoint, zpow_add₀ (by norm_num), zpow_natCast, ← mul_assoc]
  congr 1
  exact_mod_cast hvalue

end NumberLayout

namespace Double

open Numeral

/-- A number as it is held: a finite one by its canonical significand and exponent. -/
def Held : Double → Prop
  | .finite _ significand exponent => Canonical significand exponent ∧ exponent ≤ greatestExponent
  | _ => True

theorem sign_toList (negative : Bool) : Sign (sign negative).toList negative := by
  cases negative with
  | false => exact .none
  | true => exact .minus

/-- A finite number is written by its sign and a mantissa that rounds to it. -/
theorem exists_mantissa_plainText {significand : ℕ} {exponent : ℤ} (negative : Bool)
    (h : Canonical significand exponent) :
    ∃ text coefficient places, plainText (.finite negative significand exponent) = sign negative ++ text ∧
      Mantissa text.toList coefficient places ∧ Rounds (coefficient * 10 ^ (-places : ℤ)) significand exponent := by
  unfold plainText
  dsimp only
  cases hwhole : whole? (.finite negative significand exponent) with
  | some n =>
      have htext : (toString n).toList = Nat.toDigits 10 n := String.toList_ofList
      have hdigits : ∀ c ∈ Nat.toDigits 10 n, c.isDigit = true :=
        fun c hc => Nat.isDigit_of_mem_toDigits (by decide) (by decide) hc
      have hmantissa := Mantissa.whole hdigits Nat.toDigits_ne_nil
      rw [digitsValue_toDigits] at hmantissa
      refine ⟨toString n, n, 0, rfl, ?_, ?_⟩
      · rwa [htext]
      · rw [Nat.cast_zero, neg_zero, zpow_zero, mul_one, ← whole?_eq_some_iff.mp hwhole]
        exact h.rounds_worth
  | none =>
      have hpos : 0 < significand := by
        refine Nat.pos_of_ne_zero fun hzero => ?_
        rw [hzero] at hwhole
        simp [whole?] at hwhole
      have hrounds := Decimal.rounds_shortest .upward h hpos
      have hcoefficient : (Decimal.shortest .upward significand exponent).coefficient ≠ 0 := by
        intro hzero
        rw [hzero, Nat.cast_zero, zero_mul, rounds_iff_zero le_rfl (by simp)] at hrounds
        exact hpos.ne' hrounds.1
      obtain ⟨coefficient, places, hmantissa, hworth⟩ :=
        NumberLayout.exists_mantissa_decimal (Decimal.shortest .upward significand exponent) hcoefficient
      refine ⟨_, coefficient, places, rfl, ?_, hworth ▸ hrounds⟩
      rw [NumberLayout.unsigned, if_neg hpos.ne']
      exact hmantissa

/-- The text of a number is read as that number. -/
theorem read?_plainText {x : Double} (h : x.Held) : read? x.plainText.toList = some x := by
  cases x with
  | notANumber => decide
  | infinite negative => cases negative <;> decide
  | finite negative significand exponent =>
      obtain ⟨hcanonical, hgreatest⟩ := h
      obtain ⟨text, coefficient, places, htext, hmantissa, hrounds⟩ := exists_mantissa_plainText negative hcanonical
      have hwrites := hmantissa.writes (sign_toList negative)
      rw [← String.toList_append, ← htext] at hwrites
      rw [hwrites.read?_eq]
      exact congrArg some (toDouble_eq_finite_iff.mpr ⟨rfl, hrounds, hgreatest⟩)

theorem plainText_injective {x y : Double} (hx : x.Held) (hy : y.Held) (h : x.plainText = y.plainText) : x = y := by
  have hread := read?_plainText hx
  rw [h, read?_plainText hy] at hread
  exact (Option.some.inj hread).symm

/-- Numbers are held as they are read. -/
theorem held_of_read? {text : List Char} {x : Double} (h : read? text = some x) : x.Held := by
  cases x with
  | finite negative significand exponent =>
      obtain ⟨numeral, -, hdouble⟩ := exists_writes_of_read? h
      obtain ⟨-, hrounds, hgreatest⟩ := toDouble_eq_finite_iff.mp hdouble
      exact ⟨hrounds.canonical, hgreatest⟩
  | infinite => trivial
  | notANumber => trivial

end Double

end Questionnaire
