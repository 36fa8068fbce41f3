import Questionnaire.Proofs.Number.Reading
import Questionnaire.Number.Shortest

/-! The search for the shortest decimal. Seventeen digits are enough: one of the two decimals of that many digits around
a double is no further from it than the points halfway to its neighbours. The main statement says that the decimal the
search answers rounds to the double it was asked for. -/

namespace Questionnaire

namespace Shortest

open Double

variable {significand : ℕ} {exponent power : ℤ}

theorem ratio_interval (count : ℕ) (exponent : ℤ) :
    ((count * Nat.pow 2 (exponent - 2).toNat : ℕ) : ℚ) / (Nat.pow 2 (2 - exponent).toNat : ℕ) =
      count / 4 * 2 ^ exponent := by
  have hratio := scaled_ratio 2 count 1 (2 - exponent)
  rw [neg_sub, one_mul, Nat.cast_one, div_one, Nat.cast_ofNat, zpow_sub₀ two_ne_zero, div_div_eq_mul_div] at hratio
  rw [hratio]
  norm_num
  ring

theorem scaled_interval (count : ℕ) (exponent power : ℤ) :
    ((count * Nat.pow 2 (exponent - 2).toNat * Nat.pow 10 (-power).toNat : ℕ) : ℚ) /
        (Nat.pow 2 (2 - exponent).toNat * Nat.pow 10 power.toNat : ℕ) =
      count / 4 * 2 ^ exponent / 10 ^ power := by
  rw [scaled_ratio 10, ratio_interval]
  norm_num

theorem denominator_pos (exponent power : ℤ) :
    (0 : ℚ) < (Nat.pow 2 (2 - exponent).toNat * Nat.pow 10 power.toNat : ℕ) := by
  have hpos : 0 < Nat.pow 2 (2 - exponent).toNat * Nat.pow 10 power.toNat :=
    Nat.mul_pos (Nat.pow_pos (by decide)) (Nat.pow_pos (by decide))
  exact_mod_cast hpos

/-- The interval of a double in units of a power of ten, as exact ratios. -/
structure Scaled (range : Interval) (significand : ℕ) (exponent power : ℤ) : Prop where
  denominator : (0 : ℚ) < range.denominator
  low : (range.low : ℚ) / range.denominator =
    (significand - gapBelow significand exponent) * 2 ^ exponent / 10 ^ power
  value : (range.value : ℚ) / range.denominator = significand * 2 ^ exponent / 10 ^ power
  high : (range.high : ℚ) / range.denominator = (significand + 1 / 2) * 2 ^ exponent / 10 ^ power
  closed : range.closed = true ↔ Even significand

theorem scaled_inUnits (hpos : 0 < significand) (exponent power : ℤ) :
    Scaled ((interval significand exponent).inUnits power) significand exponent power where
  denominator := denominator_pos exponent power
  low := by
    rw [interval, Interval.inUnits, scaled_interval, gapBelow]
    congr 2
    split_ifs
    · rw [Nat.cast_sub (by omega)]
      push_cast
      ring
    · rw [Nat.cast_sub (by omega)]
      push_cast
      ring
  value := by
    rw [interval, Interval.inUnits, scaled_interval]
    push_cast
    ring
  high := by
    rw [interval, Interval.inUnits, scaled_interval]
    push_cast
    ring
  closed := by rw [interval, Interval.inUnits, beq_iff_eq, Nat.even_iff]

namespace Scaled

variable {range : Interval} {units : ℕ}

theorem holds_iff (h : Scaled range significand exponent power) :
    range.holds units = true ↔
      (significand - gapBelow significand exponent) * 2 ^ exponent / 10 ^ power ≤ units ∧
      (units : ℚ) ≤ (significand + 1 / 2) * 2 ^ exponent / 10 ^ power ∧
      ((units : ℚ) = (significand - gapBelow significand exponent) * 2 ^ exponent / 10 ^ power ∨
        (units : ℚ) = (significand + 1 / 2) * 2 ^ exponent / 10 ^ power → Even significand) := by
  have hpos := h.denominator
  rw [← h.low, ← h.high, div_le_iff₀ hpos, le_div_iff₀ hpos, eq_div_iff hpos.ne', eq_div_iff hpos.ne', ← h.closed]
  unfold Interval.holds
  dsimp only
  norm_cast
  generalize units * range.denominator = point
  split_ifs with hclosed
  · simp [hclosed]
  · simp only [Bool.and_eq_true, decide_eq_true_eq, hclosed, Bool.false_eq_true, imp_false]
    omega

theorem holds_of_between (h : Scaled range significand exponent power)
    (hlow : (significand - gapBelow significand exponent) * 2 ^ exponent < units * 10 ^ power)
    (hhigh : units * 10 ^ power < (significand + 1 / 2 : ℚ) * 2 ^ exponent) : range.holds units = true := by
  have htens : (0 : ℚ) < 10 ^ power := by positivity
  rw [← div_lt_iff₀ htens] at hlow
  rw [← lt_div_iff₀ htens] at hhigh
  exact h.holds_iff.mpr ⟨hlow.le, hhigh.le, fun htie => htie.elim (fun heq => absurd heq hlow.ne')
    fun heq => absurd heq hhigh.ne⟩

/-- What lies in the interval rounds to the double. -/
theorem rounds (h : Scaled range significand exponent power) (hcanonical : Canonical significand exponent)
    (hholds : range.holds units = true) : Rounds (units * 10 ^ power) significand exponent := by
  have htens : (0 : ℚ) < 10 ^ power := by positivity
  have hunit : (0 : ℚ) < 2 ^ exponent := by positivity
  obtain ⟨hlow, hhigh, htie⟩ := h.holds_iff.mp hholds
  rw [div_le_iff₀ htens] at hlow
  rw [le_div_iff₀ htens] at hhigh
  rw [eq_div_iff htens.ne', eq_div_iff htens.ne'] at htie
  refine ⟨hcanonical, (le_div_iff₀ hunit).mpr hlow, (div_le_iff₀ hunit).mpr hhigh, ?_⟩
  rwa [div_eq_iff hunit.ne', div_eq_iff hunit.ne']

theorem holds_of_choice {tie : Tie} (h : range.choice tie = some units) : range.holds units = true := by
  unfold Interval.choice at h
  dsimp only at h
  split at h
  next hlow hhigh =>
    have hnear : range.nearer tie (range.value / range.denominator) = range.value / range.denominator ∨
        range.nearer tie (range.value / range.denominator) = range.value / range.denominator + 1 := by
      unfold Interval.nearer
      dsimp only
      split_ifs
      · exact .inl rfl
      · exact .inr rfl
      · cases tie with
        | upward => exact .inr rfl
        | toEven =>
            dsimp only
            omega
    obtain rfl := Option.some.inj h
    rcases hnear with heq | heq
    · rwa [heq]
    · rwa [heq]
  next hlow hhigh =>
    obtain rfl := Option.some.inj h
    exact hlow
  next hlow hhigh =>
    obtain rfl := Option.some.inj h
    exact hhigh
  next => cases h

theorem choice_ne_none {tie : Tie} (h : range.holds (range.value / range.denominator) = true ∨
    range.holds (range.value / range.denominator + 1) = true) : range.choice tie ≠ none := by
  unfold Interval.choice
  dsimp only
  split <;> simp_all

/-- A unit that is small enough against the double has a multiple in its interval, just below the value or just above. -/
theorem exists_choice {tie : Tie} (h : Scaled range significand exponent power) (hcanonical : Canonical significand exponent)
    (hsmall : (10 : ℚ) ^ power * 10 ^ 16 ≤ significand * 2 ^ exponent) : range.choice tie ≠ none := by
  have htens : (0 : ℚ) < 10 ^ power := by positivity
  have hunit : (0 : ℚ) < 2 ^ exponent := by positivity
  have hpos : 0 < range.denominator := mod_cast h.denominator
  have hvalue := h.value
  have hlow : ((range.value / range.denominator : ℕ) : ℚ) * 10 ^ power ≤ significand * 2 ^ exponent := by
    rw [← le_div_iff₀ htens, ← hvalue]
    exact Nat.cast_div_le
  have hhigh : significand * 2 ^ exponent < ((range.value / range.denominator + 1 : ℕ) : ℚ) * 10 ^ power := by
    rw [← div_lt_iff₀ htens, ← hvalue, div_lt_iff₀ h.denominator]
    exact_mod_cast Nat.lt_mul_of_div_lt (Nat.lt_succ_self _) hpos
  have hbound : (significand : ℚ) * 2 ^ exponent ≤ (2 ^ 53 - 1) * 2 ^ exponent :=
    mul_le_mul_of_nonneg_right (by linarith [hcanonical.add_one_le]) hunit.le
  have hgap := mul_pos (gapBelow_pos significand exponent) hunit
  refine choice_ne_none ?_
  generalize range.value / range.denominator = units at hlow hhigh ⊢
  have hnext : ((units + 1 : ℕ) : ℚ) * 10 ^ power = units * 10 ^ power + 10 ^ power := by
    push_cast
    ring
  by_cases hover : ((units + 1 : ℕ) : ℚ) * 10 ^ power < (significand + 1 / 2) * 2 ^ exponent
  · exact .inr (h.holds_of_between (by rw [sub_mul]; linarith) hover)
  · rw [hnext, add_mul] at hover
    -- the next multiple is half a place above the value or more, so that this one is less than half a place under it
    refine .inl (h.holds_of_between ?_ (by rw [add_mul]; linarith))
    rcases gapBelow_cases significand exponent with ⟨rfl, -, hgap⟩ | ⟨-, hgap⟩
    · push_cast at hsmall hlow hover
      linarith
    · rw [hgap, sub_mul]
      linarith

end Scaled

theorem pow_floorLog10_le {num den : ℕ} (hnum : 0 < num) (hden : 0 < den) :
    (10 : ℚ) ^ floorLog10 num den ≤ num / den := by
  have hpos : (0 : ℚ) < den := mod_cast hden
  unfold floorLog10 digitCount
  split_ifs with hle
  · have hquotient : num / den ≠ 0 := (Nat.div_pos hle hden).ne'
    have hlength : Int.ofNat (Nat.toDigits 10 (num / den)).length - 1 =
        ((Nat.toDigits 10 (num / den)).length - 1 : ℕ) := by
      rw [Nat.cast_sub Nat.length_toDigits_pos]
      rfl
    rw [hlength, zpow_natCast]
    calc (10 : ℚ) ^ ((Nat.toDigits 10 (num / den)).length - 1) ≤ (num / den : ℕ) :=
          mod_cast (Numeral.toDigits_bounds hquotient).1
      _ ≤ num / den := Nat.cast_div_le
  · have hless : (den - 1) / num < 10 ^ (Nat.toDigits 10 ((den - 1) / num)).length :=
      (Nat.length_toDigits_le_iff (by decide) Nat.length_toDigits_pos).mp le_rfl
    have hden' : den ≤ 10 ^ (Nat.toDigits 10 ((den - 1) / num)).length * num := by
      have := Nat.lt_mul_of_div_lt hless hnum
      omega
    rw [Int.ofNat_eq_natCast, zpow_neg, zpow_natCast, le_div_iff₀ hpos, inv_mul_le_iff₀ (by positivity)]
    exact_mod_cast hden'

variable {range : Interval}

/-- The search ends with what an attempt has chosen, if an attempt is bound to choose. -/
theorem exists_of_search {tie : Tie} {top : ℤ} {digits attempts : ℕ}
    (h : (range.inUnits (top - Int.ofNat (digits + attempts) + 1)).choice tie ≠ none) :
    ∃ units power, (range.inUnits power).choice tie = some units ∧
      search range tie top digits attempts = ⟨units, power⟩ := by
  induction attempts generalizing digits with
  | zero =>
      obtain ⟨units, hunits⟩ := Option.ne_none_iff_exists'.mp h
      refine ⟨units, _, hunits, ?_⟩
      unfold search
      rw [Nat.add_zero] at hunits
      simp only [hunits, Nat.add_zero]
  | succ attempts ih =>
      unfold search
      dsimp only
      cases hchoice : (range.inUnits (top - Int.ofNat digits + 1)).choice tie with
      | some units => exact ⟨units, _, hchoice, rfl⟩
      | none =>
          refine ih ?_
          rwa [Nat.add_right_comm, Nat.add_assoc]

end Shortest

open Double in
/-- The shortest decimal for a double rounds to it. -/
theorem Decimal.rounds_shortest (tie : Tie) {significand : ℕ} {exponent : ℤ} (h : Canonical significand exponent)
    (hpos : 0 < significand) :
    Rounds ((shortest tie significand exponent).coefficient * 10 ^ (shortest tie significand exponent).exponent)
      significand exponent := by
  obtain ⟨range, hrange⟩ : ∃ range, Shortest.interval significand exponent = range := ⟨_, rfl⟩
  obtain ⟨top, htop⟩ : ∃ top, Shortest.floorLog10 range.value range.denominator = top := ⟨_, rfl⟩
  have hratio : (range.value : ℚ) / range.denominator = significand * 2 ^ exponent := by
    rw [← hrange, Shortest.interval, Shortest.ratio_interval]
    push_cast
    ring
  have hreach : (10 : ℚ) ^ top ≤ significand * 2 ^ exponent := by
    rw [← hratio, ← htop, ← hrange]
    refine Shortest.pow_floorLog10_le ?_ ?_
    · exact Nat.mul_pos (by omega) (Nat.pow_pos (by decide))
    · exact Nat.pow_pos (by decide)
  have hsmall : (10 : ℚ) ^ (top - Int.ofNat (1 + 16) + 1) * 10 ^ 16 ≤ significand * 2 ^ exponent := by
    rw [← zpow_natCast, ← zpow_add₀ (by norm_num)]
    convert hreach using 2
    simp
    omega
  have hscaled := fun power => hrange ▸ Shortest.scaled_inUnits hpos exponent power
  obtain ⟨units, power, hchoice, hsearch⟩ := Shortest.exists_of_search ((hscaled _).exists_choice h hsmall)
  have hshortest : shortest tie significand exponent = ⟨units, power⟩ := by
    rw [← hsearch, ← htop, ← hrange]
    rfl
  rw [hshortest]
  exact (hscaled power).rounds h (Shortest.Scaled.holds_of_choice hchoice)

end Questionnaire
