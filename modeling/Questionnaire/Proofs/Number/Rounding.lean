import Mathlib
import Questionnaire.Number.Double

/-! Rounding to the nearest double. A double takes the ratios up to halfway to its neighbours, and the points halfway
themselves if its significand is even; below a power of two the neighbour is half as far away. The main statements say
that a ratio is taken to the double whose interval it lies in, and that this is the double nearest to it. -/

namespace Questionnaire

/-- A whole power as the quotient of two natural ones. -/
theorem zpow_eq_div (base : ℚ) (power : ℤ) :
    base ^ power = base ^ power.toNat / base ^ (-power).toNat := by
  rcases le_total 0 power with h | h
  · have hneg : (-power).toNat = 0 := by omega
    rw [hneg, pow_zero, div_one, ← zpow_natCast, Int.toNat_of_nonneg h]
  · have hpos : power.toNat = 0 := by omega
    have hneg : ((-power).toNat : ℤ) = -power := Int.toNat_of_nonneg (by omega)
    rw [hpos, pow_zero, one_div, ← zpow_natCast, hneg, zpow_neg, inv_inv]

/-- A ratio in units of a power, with the power split between its two parts. -/
theorem scaled_ratio (base num den : ℕ) (power : ℤ) :
    ((num * Nat.pow base (-power).toNat : ℕ) : ℚ) / (den * Nat.pow base power.toNat : ℕ) =
      num / den / (base : ℚ) ^ power := by
  rw [zpow_eq_div, div_div_eq_mul_div, div_mul_eq_mul_div, div_div, Nat.pow_eq, Nat.pow_eq]
  push_cast
  rfl

namespace Double

/-- The value without the sign. -/
def worth (significand : ℕ) (exponent : ℤ) : ℚ := significand * 2 ^ exponent

/-- The significand is full, unless the exponent is the least one. There is no bound on the exponent. -/
structure Canonical (significand : ℕ) (exponent : ℤ) : Prop where
  bound : significand < significandBound
  least : leastExponent ≤ exponent
  filled : significandBound / 2 ≤ significand ∨ exponent = leastExponent

/-- Half the distance to the double below, in units of the last place. -/
def gapBelow (significand : ℕ) (exponent : ℤ) : ℚ :=
  if significand = significandBound / 2 ∧ leastExponent < exponent then 1 / 4 else 1 / 2

/-- The ratio lies between the points halfway to the neighbours of the double. -/
structure Rounds (ratio : ℚ) (significand : ℕ) (exponent : ℤ) : Prop where
  canonical : Canonical significand exponent
  above : significand - gapBelow significand exponent ≤ ratio / 2 ^ exponent
  below : ratio / 2 ^ exponent ≤ significand + 1 / 2
  even : ratio / 2 ^ exponent = significand - gapBelow significand exponent ∨
    ratio / 2 ^ exponent = significand + 1 / 2 → Even significand

/-- No double is nearer to the ratio, and among two that are as near this is the one with the even significand. -/
structure Nearest (ratio : ℚ) (significand : ℕ) (exponent : ℤ) : Prop where
  canonical : Canonical significand exponent
  nearest : ∀ other power, Canonical other power → |ratio - worth significand exponent| ≤ |ratio - worth other power|
  even : ∀ other power, Canonical other power → |ratio - worth significand exponent| = |ratio - worth other power| →
    (other = significand ∧ power = exponent) ∨ Even significand

theorem significandBound_eq : significandBound = 2 ^ 53 := rfl

theorem gapBelow_cases (significand : ℕ) (exponent : ℤ) :
    (significand = 2 ^ 52 ∧ leastExponent < exponent ∧ gapBelow significand exponent = 1 / 4) ∨
      ¬(significand = 2 ^ 52 ∧ leastExponent < exponent) ∧ gapBelow significand exponent = 1 / 2 := by
  by_cases h : significand = 2 ^ 52 ∧ leastExponent < exponent
  · exact .inl ⟨h.1, h.2, if_pos h⟩
  · exact .inr ⟨h, if_neg h⟩

/-- A whole number to which a ratio is rounded, from a half to the even one. -/
structure RoundsTo (ratio : ℚ) (whole : ℕ) : Prop where
  above : whole - 1 / 2 ≤ ratio
  below : ratio ≤ whole + 1 / 2
  even : ratio = whole - 1 / 2 ∨ ratio = whole + 1 / 2 → Even whole

theorem RoundsTo.eq {ratio : ℚ} {left right : ℕ} (hleft : RoundsTo ratio left) (hright : RoundsTo ratio right) :
    left = right := by
  wlog hlt : left < right generalizing left right
  · rcases (not_lt.mp hlt).eq_or_lt with heq | hgt
    · exact heq.symm
    · exact (this hright hleft hgt).symm
  have habove := hright.above
  have hbelow := hleft.below
  obtain rfl : right = left + 1 := by
    have hle : (right : ℚ) ≤ left + 1 := by linarith
    exact le_antisymm (mod_cast hle) hlt
  push_cast at habove
  have hparity := hright.even (.inl (by push_cast; linarith))
  exact absurd (hleft.even (.inr (by linarith))) (Nat.even_add_one.mp hparity)

theorem roundsTo_roundedQuotient (num : ℕ) {den : ℕ} (hden : 0 < den) :
    RoundsTo (num / den) (roundedQuotient num den) := by
  have hpos : (0 : ℚ) < den := mod_cast hden
  have hnum : (num : ℚ) = den * (num / den : ℕ) + (num % den : ℕ) := mod_cast (Nat.div_add_mod num den).symm
  have hratio : (num : ℚ) / den = (num / den : ℕ) + (num % den : ℕ) / den := by
    rw [div_eq_iff hpos.ne', add_mul, div_mul_cancel₀ _ hpos.ne']
    linarith
  have hless : ∀ part : ℕ, 2 * part < den ↔ (part : ℚ) / den < 1 / 2 := fun part => by
    rw [div_lt_div_iff₀ hpos two_pos, one_mul, mul_comm (part : ℚ)]
    exact_mod_cast Iff.rfl
  have hmore : ∀ part : ℕ, den < 2 * part ↔ 1 / 2 < (part : ℚ) / den := fun part => by
    rw [div_lt_div_iff₀ two_pos hpos, one_mul, mul_comm (part : ℚ)]
    exact_mod_cast Iff.rfl
  have hnonneg : 0 ≤ ((num % den : ℕ) : ℚ) / den := by positivity
  have hone : ((num % den : ℕ) : ℚ) / den < 1 := (div_lt_one hpos).mpr (mod_cast Nat.mod_lt num hden)
  rw [hratio]
  unfold roundedQuotient
  simp only [hless, hmore]
  generalize ((num % den : ℕ) : ℚ) / den = part at hnonneg hone
  generalize num / den = whole
  split_ifs with hlow hhigh
  · exact ⟨by linarith, by linarith, by rintro (h | h) <;> linarith⟩
  · refine ⟨by push_cast; linarith, by push_cast; linarith, ?_⟩
    push_cast
    rintro (h | h) <;> linarith
  · have hhalf : part = 1 / 2 := le_antisymm (not_lt.mp hhigh) (not_lt.mp hlow)
    subst hhalf
    rcases Nat.even_or_odd whole with heven | hodd
    · rw [Nat.even_iff.mp heven]
      exact ⟨by push_cast; linarith, by push_cast; linarith, fun _ => heven⟩
    · rw [Nat.odd_iff.mp hodd]
      exact ⟨by push_cast; linarith, by push_cast; linarith, fun _ => hodd.add_one⟩

theorem roundedQuotient_eq_iff {num den whole : ℕ} (hden : 0 < den) :
    roundedQuotient num den = whole ↔ RoundsTo (num / den) whole := by
  constructor
  · rintro rfl
    exact roundsTo_roundedQuotient num hden
  · exact (roundsTo_roundedQuotient num hden).eq

theorem significandAt_eq_iff {num den whole : ℕ} (hden : 0 < den) {exponent : ℤ} :
    significandAt num den exponent = whole ↔ RoundsTo (num / den / 2 ^ exponent) whole := by
  have hpos : 0 < den * Nat.pow 2 exponent.toNat := Nat.mul_pos hden (Nat.pow_pos two_pos)
  rw [significandAt, roundedQuotient_eq_iff hpos, scaled_ratio]
  rfl

theorem reaches_iff {num den : ℕ} (hnum : 0 < num) (hden : 0 < den) {power : ℤ} :
    reaches num den power = true ↔ power ≤ Int.log 2 ((num : ℚ) / den) := by
  have hratio : (0 : ℚ) < num / den := by positivity
  rw [← Int.zpow_le_iff_le_log one_lt_two hratio, reaches, decide_eq_true_iff, Nat.cast_ofNat, zpow_eq_div,
    div_le_div_iff₀ (by positivity) (by positivity), mul_comm (_ ^ _) (den : ℚ)]
  exact_mod_cast Iff.rfl

theorem floorLog2_eq {num den : ℕ} (hnum : 0 < num) (hden : 0 < den) :
    floorLog2 num den = Int.log 2 ((num : ℚ) / den) := by
  have hratio : (0 : ℚ) < num / den := by positivity
  have hpos : (0 : ℚ) < den := mod_cast hden
  have hlow : ((2 : ℕ) : ℚ) ^ ((num.log2 : ℤ) - den.log2 - 1) ≤ num / den := by
    have hnum' : (2 : ℚ) ^ num.log2 ≤ num := mod_cast Nat.log2_self_le hnum.ne'
    have hden' : (den : ℚ) ≤ 2 ^ (den.log2 + 1) := mod_cast (Nat.lt_log2_self (n := den)).le
    rw [sub_sub, Nat.cast_ofNat, zpow_sub₀ two_ne_zero]
    exact div_le_div₀ (Nat.cast_nonneg num) (mod_cast hnum') hpos (mod_cast hden')
  have hhigh : (num : ℚ) / den < ((2 : ℕ) : ℚ) ^ ((num.log2 : ℤ) - den.log2 + 1) := by
    have hnum' : (num : ℚ) < 2 ^ (num.log2 + 1) := mod_cast Nat.lt_log2_self (n := num)
    have hden' : (2 : ℚ) ^ den.log2 ≤ den := mod_cast Nat.log2_self_le hden.ne'
    rw [sub_add_eq_add_sub, Nat.cast_ofNat, zpow_sub₀ two_ne_zero]
    exact div_lt_div₀ (mod_cast hnum') (mod_cast hden') (by positivity) (by positivity)
  rw [Int.zpow_le_iff_le_log one_lt_two hratio] at hlow
  rw [Int.lt_zpow_iff_log_lt one_lt_two hratio] at hhigh
  unfold floorLog2
  simp only [reaches_iff hnum hden, Int.ofNat_eq_natCast]
  split_ifs with h
  · have := Int.lt_add_one_iff.mp hhigh
    omega
  · omega

variable {ratio : ℚ} {significand : ℕ} {exponent : ℤ}

theorem Canonical.add_one_le (h : Canonical significand exponent) : (significand : ℚ) + 1 ≤ 2 ^ 53 :=
  mod_cast Nat.succ_le_of_lt h.bound

/-- The power of two that a ratio reaches, in terms of the double that it rounds to. Only below a power of two does the
ratio not fill the significand. -/
theorem Rounds.exponent_cases (h : Rounds ratio significand exponent) (hratio : 0 < ratio) :
    max (Int.log 2 ratio - 52) leastExponent = exponent ∨
      (significand = 2 ^ 52 ∧ leastExponent < exponent ∧ Int.log 2 ratio - 52 = exponent - 1 ∧
        ratio / 2 ^ exponent < 2 ^ 52) := by
  have hunit : (0 : ℚ) < 2 ^ exponent := by positivity
  have habove := h.above
  have hbelow := h.below
  have hbound := h.canonical.add_one_le
  have hleast := h.canonical.least
  have hreach : ∀ power : ℤ, exponent + power ≤ Int.log 2 ratio ↔ 2 ^ power ≤ ratio / 2 ^ exponent := fun power => by
    rw [← Int.zpow_le_iff_le_log one_lt_two hratio, Nat.cast_ofNat, zpow_add₀ two_ne_zero, mul_comm, ← le_div_iff₀ hunit]
  have hhigh : ¬exponent + 53 ≤ Int.log 2 ratio := by
    rw [hreach, zpow_ofNat]
    linarith
  by_cases hfull : (2 : ℚ) ^ (52 : ℤ) ≤ ratio / 2 ^ exponent
  · have := (hreach 52).mpr hfull
    exact .inl (by omega)
  have hlow := mt (hreach 52).mp hfull
  rcases hleast.eq_or_lt with heq | hlt
  · exact .inl (by omega)
  rw [zpow_ofNat, not_le] at hfull
  have hfilled : 2 ^ 52 ≤ significand := h.canonical.filled.resolve_right hlt.ne'
  rcases gapBelow_cases significand exponent with ⟨hsignificand, -, hgap⟩ | ⟨hnot, hgap⟩
  · have hhalf := (hreach 51).mpr (by
      rw [zpow_ofNat]
      rw [hgap, hsignificand] at habove
      push_cast at habove
      linarith)
    exact .inr ⟨hsignificand, hlt, by omega, hfull⟩
  · have hmore : 2 ^ 52 + 1 ≤ significand := lt_of_le_of_ne hfilled fun heq => hnot ⟨heq.symm, hlt⟩
    have hmore' : (2 : ℚ) ^ 52 + 1 ≤ significand := mod_cast hmore
    rw [hgap] at habove
    linarith

theorem Rounds.roundsTo (h : Rounds ratio significand exponent) :
    RoundsTo (ratio / 2 ^ exponent) significand := by
  have habove := h.above
  rcases gapBelow_cases significand exponent with ⟨rfl, -, hgap⟩ | ⟨-, hgap⟩
  · rw [hgap] at habove
    exact ⟨by linarith, h.below, fun _ => by decide⟩
  · rw [hgap] at habove
    exact ⟨habove, h.below, fun htie => h.even (hgap ▸ htie)⟩

/-- The exponent with which a ratio fills the significand, or the least one. -/
theorem ratio_bounds (hratio : 0 < ratio) (hexponent : max (Int.log 2 ratio - 52) leastExponent = exponent) :
    ratio / 2 ^ exponent < 2 ^ 53 ∧ (exponent = leastExponent ∨ 2 ^ 52 ≤ ratio / 2 ^ exponent) := by
  have hunit : (0 : ℚ) < 2 ^ exponent := by positivity
  constructor
  · rw [div_lt_iff₀ hunit, mul_comm, ← zpow_natCast, ← zpow_add₀ two_ne_zero, ← Nat.cast_ofNat (R := ℚ),
      Int.lt_zpow_iff_log_lt one_lt_two hratio]
    omega
  · refine (eq_or_ne exponent leastExponent).imp_right fun hne => ?_
    rw [le_div_iff₀ hunit, mul_comm, ← zpow_natCast, ← zpow_add₀ two_ne_zero, ← Nat.cast_ofNat (R := ℚ),
      Int.zpow_le_iff_le_log one_lt_two hratio]
    omega

theorem rounds_of_roundsTo (hratio : 0 < ratio) (hexponent : max (Int.log 2 ratio - 52) leastExponent = exponent)
    (h : RoundsTo (ratio / 2 ^ exponent) significand) (hne : significand ≠ 2 ^ 53) :
    Rounds ratio significand exponent := by
  obtain ⟨hhigh, hfull⟩ := ratio_bounds hratio hexponent
  have habove := h.above
  have hbelow := h.below
  have hbound : significand < 2 ^ 53 := by
    have hlt : (significand : ℚ) < (2 ^ 53 + 1 : ℕ) := by
      push_cast
      linarith
    exact lt_of_le_of_ne (Nat.lt_add_one_iff.mp (mod_cast hlt)) hne
  have hleast : leastExponent ≤ exponent := hexponent ▸ le_max_right _ _
  have hfilled : 2 ^ 52 ≤ significand ∨ exponent = leastExponent := by
    refine hfull.symm.imp_left fun hfull => ?_
    have hlt : ((2 ^ 52 : ℕ) : ℚ) < (significand + 1 : ℕ) := by
      push_cast
      linarith
    exact Nat.lt_add_one_iff.mp (mod_cast hlt)
  have hcanonical : Canonical significand exponent := ⟨hbound, hleast, hfilled⟩
  rcases gapBelow_cases significand exponent with ⟨rfl, hlt, hgap⟩ | ⟨-, hgap⟩
  · have hfull := hfull.resolve_left hlt.ne'
    refine ⟨hcanonical, ?_, hbelow, fun _ => by decide⟩
    rw [hgap]
    push_cast
    linarith
  · exact ⟨hcanonical, hgap ▸ habove, hbelow, hgap ▸ h.even⟩

/-- Just below a power of two a ratio fills the significand beyond its bound. -/
theorem rounds_of_roundsTo_bound (hratio : 0 < ratio)
    (hexponent : max (Int.log 2 ratio - 52) leastExponent = exponent)
    (h : RoundsTo (ratio / 2 ^ exponent) (2 ^ 53)) : Rounds ratio (2 ^ 52) (exponent + 1) := by
  obtain ⟨hhigh, -⟩ := ratio_bounds hratio hexponent
  have habove := h.above
  have hleast : leastExponent ≤ exponent := hexponent ▸ le_max_right _ _
  have hgap : gapBelow (2 ^ 52) (exponent + 1) = 1 / 4 := if_pos ⟨rfl, by omega⟩
  have hhalf : ratio / 2 ^ (exponent + 1) = ratio / 2 ^ exponent / 2 := by
    rw [zpow_add_one₀ two_ne_zero, div_div]
  push_cast at habove
  refine ⟨⟨by decide, by omega, .inl (by decide)⟩, ?_, ?_, fun _ => by decide⟩
  · rw [hgap, hhalf]
    push_cast
    linarith
  · rw [hhalf]
    push_cast
    linarith

theorem Rounds.roundsTo_bound (h : Rounds ratio (2 ^ 52) exponent) (hleast : leastExponent < exponent)
    (hless : ratio / 2 ^ exponent < 2 ^ 52) : RoundsTo (ratio / 2 ^ (exponent - 1)) (2 ^ 53) := by
  have hdouble : ratio / 2 ^ (exponent - 1) = ratio / 2 ^ exponent * 2 := by
    rw [zpow_sub_one₀ two_ne_zero, div_mul_eq_div_div, div_inv_eq_mul]
  have hgap : gapBelow (2 ^ 52) exponent = 1 / 4 := if_pos ⟨rfl, hleast⟩
  have habove := h.above
  rw [hgap] at habove
  rw [hdouble]
  push_cast at habove
  refine ⟨?_, ?_, fun _ => by decide⟩
  · push_cast
    linarith
  · push_cast
    linarith

theorem gapBelow_pos (significand : ℕ) (exponent : ℤ) : 0 < gapBelow significand exponent := by
  unfold gapBelow
  split_ifs <;> norm_num

theorem gapBelow_le_half (significand : ℕ) (exponent : ℤ) : gapBelow significand exponent ≤ 1 / 2 := by
  unfold gapBelow
  split_ifs <;> norm_num

/-- Under half of the least positive double there is only zero. -/
theorem rounds_iff_zero (hratio : 0 ≤ ratio) (hless : ratio / 2 ^ leastExponent < 1 / 2) :
    Rounds ratio significand exponent ↔ significand = 0 ∧ exponent = leastExponent := by
  have hunit : (0 : ℚ) < 2 ^ leastExponent := by positivity
  constructor
  · intro h
    have hscale : ratio / 2 ^ exponent ≤ ratio / 2 ^ leastExponent :=
      div_le_div_of_nonneg_left hratio hunit (zpow_le_zpow_right₀ one_le_two h.canonical.least)
    have hgap := gapBelow_le_half significand exponent
    have habove := h.above
    have hone : (significand : ℚ) < (1 : ℕ) := by
      push_cast
      linarith
    have hzero : significand = 0 := Nat.lt_one_iff.mp (mod_cast hone)
    refine ⟨hzero, h.canonical.filled.resolve_left ?_⟩
    rw [hzero]
    decide
  · rintro ⟨rfl, rfl⟩
    have hnonneg : 0 ≤ ratio / 2 ^ leastExponent := div_nonneg hratio hunit.le
    have hgap : gapBelow 0 leastExponent = 1 / 2 := if_neg fun h => h.2.false
    refine ⟨⟨by decide, le_rfl, .inr rfl⟩, ?_, ?_, fun _ => by decide⟩
    · rw [hgap]
      push_cast
      linarith
    · push_cast
      linarith

/-- A ratio is taken to the double whose interval it lies in. -/
theorem ofRatio_eq_finite_iff {num den : ℕ} (hden : 0 < den) {sign negative : Bool} :
    ofRatio sign num den = .finite negative significand exponent ↔
      negative = sign ∧ Rounds (num / den) significand exponent ∧ exponent ≤ greatestExponent := by
  rcases Nat.eq_zero_or_pos num with rfl | hnum
  · have hzero : ((0 : ℕ) : ℚ) / den = 0 := by simp
    rw [ofRatio, if_pos rfl, zero, finite.injEq, hzero, rounds_iff_zero le_rfl (by simp)]
    constructor
    · rintro ⟨rfl, rfl, rfl⟩
      exact ⟨rfl, ⟨rfl, rfl⟩, by decide⟩
    · rintro ⟨rfl, ⟨rfl, rfl⟩, -⟩
      exact ⟨rfl, rfl, rfl⟩
  have hratio : (0 : ℚ) < num / den := by positivity
  have hexponent : max (Int.log 2 ((num : ℚ) / den) - 52) leastExponent = exponentOf num den := by
    rw [exponentOf, floorLog2_eq hnum hden]
  have hrounded : RoundsTo ((num : ℚ) / den / 2 ^ exponentOf num den) (significandAt num den (exponentOf num den)) :=
    (significandAt_eq_iff hden).mp rfl
  unfold ofRatio
  rw [if_neg hnum.ne']
  dsimp only
  constructor
  · by_cases hcarry : significandAt num den (exponentOf num den) = significandBound
    · rw [if_pos hcarry]
      dsimp only
      rw [hcarry] at hrounded
      split_ifs with hgreatest
      · rintro ⟨⟩
      · rintro ⟨⟩
        exact ⟨rfl, rounds_of_roundsTo_bound hratio hexponent hrounded, not_lt.mp hgreatest⟩
    · rw [if_neg hcarry]
      dsimp only
      split_ifs with hgreatest
      · rintro ⟨⟩
      · rintro ⟨⟩
        exact ⟨rfl, rounds_of_roundsTo hratio hexponent hrounded hcarry, not_lt.mp hgreatest⟩
  · rintro ⟨rfl, hrounds, hgreatest⟩
    rcases hrounds.exponent_cases hratio with heq | ⟨rfl, hlt, hlog, hless⟩
    · rw [hexponent] at heq
      rw [heq] at hrounded ⊢
      rw [hrounded.eq hrounds.roundsTo, if_neg hrounds.canonical.bound.ne]
      dsimp only
      rw [if_neg (not_lt.mpr hgreatest)]
    · have heq : exponentOf num den = exponent - 1 := by
        rw [← hexponent, hlog]
        omega
      rw [heq] at hrounded ⊢
      rw [hrounded.eq (hrounds.roundsTo_bound hlt hless), if_pos significandBound_eq.symm]
      dsimp only
      rw [sub_add_cancel, if_neg (not_lt.mpr hgreatest)]
      rfl

theorem exists_roundsTo (hratio : 0 ≤ ratio) : ∃ whole, RoundsTo ratio whole := by
  have heq : ((ratio.num.natAbs : ℕ) : ℚ) / ratio.den = ratio := by
    rw [Nat.cast_natAbs, abs_of_nonneg (Rat.num_nonneg.mpr hratio)]
    exact Rat.num_div_den ratio
  exact ⟨_, heq ▸ roundsTo_roundedQuotient ratio.num.natAbs ratio.den_pos⟩

/-- A ratio that is not too great rounds to a double. -/
theorem exists_rounds (hratio : 0 ≤ ratio) (hless : ratio < 2 ^ 1023) :
    ∃ significand exponent, Rounds ratio significand exponent ∧ exponent ≤ greatestExponent := by
  rcases hratio.eq_or_lt with rfl | hpos
  · exact ⟨0, leastExponent, (rounds_iff_zero le_rfl (by simp)).mpr ⟨rfl, rfl⟩, by decide⟩
  have hlog : Int.log 2 ratio < 1023 := by
    rw [← Int.lt_zpow_iff_log_lt one_lt_two hpos, zpow_ofNat]
    exact hless
  have hgreatest : max (Int.log 2 ratio - 52) leastExponent + 1 ≤ greatestExponent := by
    rw [leastExponent, greatestExponent]
    omega
  obtain ⟨whole, hwhole⟩ := exists_roundsTo
    (div_nonneg hratio (zpow_nonneg two_pos.le (max (Int.log 2 ratio - 52) leastExponent)))
  by_cases hbound : whole = 2 ^ 53
  · rw [hbound] at hwhole
    exact ⟨_, _, rounds_of_roundsTo_bound hpos rfl hwhole, hgreatest⟩
  · exact ⟨_, _, rounds_of_roundsTo hpos rfl hwhole hbound, (Int.le_add_one le_rfl).trans hgreatest⟩

/-- Between a double and its neighbours there is no other. -/
theorem Canonical.neighbours (h : Canonical significand exponent) {other : ℕ} {power : ℤ}
    (hother : Canonical other power) (hne : ¬(other = significand ∧ power = exponent)) :
    worth other power / 2 ^ exponent ≤ significand - 2 * gapBelow significand exponent ∨
      (significand : ℚ) + 1 ≤ worth other power / 2 ^ exponent := by
  have hworth : worth other power / 2 ^ exponent = other * 2 ^ (power - exponent) := by
    rw [worth, mul_div_assoc, ← zpow_sub₀ two_ne_zero]
  have hgap := gapBelow_le_half significand exponent
  rw [hworth]
  rcases lt_trichotomy power exponent with hlt | rfl | hgt
  · -- the other one lies under a power of two that this one reaches
    have hscale : (2 : ℚ) ^ (power - exponent) ≤ 1 / 2 := by
      calc (2 : ℚ) ^ (power - exponent) ≤ 2 ^ (-1 : ℤ) := zpow_le_zpow_right₀ one_le_two (by omega)
        _ = 1 / 2 := by norm_num
    have hless : (other : ℚ) * 2 ^ (power - exponent) ≤ 2 ^ 52 - 1 / 2 := by
      have hbound := hother.add_one_le
      calc (other : ℚ) * 2 ^ (power - exponent) ≤ other * (1 / 2) := by gcongr
        _ ≤ 2 ^ 52 - 1 / 2 := by linarith
    have hleast : leastExponent < exponent := hother.least.trans_lt hlt
    have hfilled : 2 ^ 52 ≤ significand := h.filled.resolve_right hleast.ne'
    rcases gapBelow_cases significand exponent with ⟨rfl, -, heq⟩ | ⟨hnot, heq⟩
    · rw [heq]
      push_cast
      exact .inl (by linarith)
    · have hmore : 2 ^ 52 + 1 ≤ significand := lt_of_le_of_ne hfilled fun heq => hnot ⟨heq.symm, hleast⟩
      have hmore' : (2 : ℚ) ^ 52 + 1 ≤ significand := mod_cast hmore
      rw [heq]
      exact .inl (by linarith)
  · rw [sub_self, zpow_zero, mul_one]
    rcases Nat.lt_or_gt_of_ne fun heq => hne ⟨heq, rfl⟩ with hlt | hgt
    · have hle : (other : ℚ) + 1 ≤ significand := mod_cast hlt
      exact .inl (by linarith)
    · exact .inr (mod_cast hgt)
  · have hscale : (2 : ℚ) ≤ 2 ^ (power - exponent) := by
      calc (2 : ℚ) = 2 ^ (1 : ℤ) := (zpow_one 2).symm
        _ ≤ 2 ^ (power - exponent) := zpow_le_zpow_right₀ one_le_two (by omega)
    have hfilled : 2 ^ 52 ≤ other := hother.filled.resolve_right (h.least.trans_lt hgt).ne'
    have hfilled' : (2 : ℚ) ^ 52 ≤ other := mod_cast hfilled
    have hbound := h.add_one_le
    refine .inr ?_
    calc (significand : ℚ) + 1 ≤ 2 ^ 52 * 2 := by linarith
      _ ≤ other * 2 ^ (power - exponent) := by gcongr

theorem abs_sub_worth (ratio : ℚ) (exponent : ℤ) (other : ℕ) (power : ℤ) :
    |ratio - worth other power| = |ratio / 2 ^ exponent - worth other power / 2 ^ exponent| * 2 ^ exponent := by
  have hunit : (0 : ℚ) < 2 ^ exponent := by positivity
  rw [← sub_div, abs_div, abs_of_pos hunit, div_mul_cancel₀ _ hunit.ne']

theorem worth_div (significand : ℕ) (exponent : ℤ) : worth significand exponent / 2 ^ exponent = significand := by
  rw [worth, mul_div_cancel_right₀ _ (by positivity)]

theorem Canonical.rounds_worth (h : Canonical significand exponent) :
    Rounds (worth significand exponent) significand exponent := by
  have hgap := gapBelow_pos significand exponent
  refine ⟨h, ?_, ?_, ?_⟩
  · rw [worth_div]
    linarith
  · rw [worth_div]
    linarith
  · rw [worth_div]
    rintro (htie | htie) <;> linarith

/-- A double is whole if its value is. -/
theorem whole?_eq_some_iff {negative : Bool} {whole : ℕ} :
    whole? (.finite negative significand exponent) = some whole ↔ worth significand exponent = whole := by
  have hunit : 0 < Nat.pow 2 (-exponent).toNat := Nat.pow_pos two_pos
  have hworth : worth significand exponent = whole ↔
      significand * Nat.pow 2 exponent.toNat = whole * Nat.pow 2 (-exponent).toNat := by
    rw [worth, zpow_eq_div, mul_div_assoc', div_eq_iff (by positivity)]
    exact_mod_cast Iff.rfl
  have hpowers : Nat.pow 2 exponent.toNat = 1 ∨ Nat.pow 2 (-exponent).toNat = 1 := by
    rcases le_total exponent 0 with hle | hge
    · exact .inl (by rw [Int.toNat_of_nonpos hle])
    · exact .inr (by rw [Int.toNat_of_nonpos (neg_nonpos.mpr hge)])
  rw [hworth]
  unfold whole?
  dsimp only
  generalize Nat.pow 2 (-exponent).toNat = unit at hunit hpowers
  generalize Nat.pow 2 exponent.toNat = scale at hpowers
  constructor
  · intro h
    split_ifs at h with hdivides
    rw [← Option.some.inj h, mul_right_comm, Nat.div_mul_cancel (Nat.dvd_of_mod_eq_zero hdivides)]
  · intro h
    rcases hpowers with rfl | rfl
    · rw [mul_one] at h
      rw [h, if_pos (Nat.mul_mod_left whole unit), Nat.mul_div_cancel whole hunit, mul_one]
    · rw [if_pos (Nat.mod_one significand), Nat.div_one, h, mul_one]

/-- A whole number rounds to a whole number. -/
theorem Rounds.exists_whole {whole : ℕ} (h : Rounds whole significand exponent) :
    ∃ rounded : ℕ, worth significand exponent = rounded := by
  rcases le_or_gt 0 exponent with hexponent | hexponent
  · refine ⟨significand * 2 ^ exponent.toNat, ?_⟩
    rw [worth, zpow_eq_div, Int.toNat_of_nonpos (neg_nonpos.mpr hexponent), pow_zero, div_one]
    push_cast
    rfl
  · have hscaled : (whole : ℚ) / 2 ^ exponent = (whole * 2 ^ (-exponent).toNat : ℕ) := by
      rw [zpow_eq_div, Int.toNat_of_nonpos hexponent.le, pow_zero, div_div_eq_mul_div, div_one]
      push_cast
      rfl
    have hrounded := h.roundsTo
    rw [hscaled] at hrounded
    have hself : RoundsTo ((whole * 2 ^ (-exponent).toNat : ℕ) : ℚ) (whole * 2 ^ (-exponent).toNat) :=
      ⟨by linarith, by linarith, by rintro (htie | htie) <;> linarith⟩
    refine ⟨whole, ?_⟩
    rw [worth, hrounded.eq hself, ← hscaled, div_mul_cancel₀ _ (by positivity)]

/-- The double above, in units of the last place. -/
theorem Canonical.exists_above (h : Canonical significand exponent) :
    ∃ other power, Canonical other power ∧ worth other power / 2 ^ exponent = significand + 1 := by
  by_cases hbound : significand + 1 < 2 ^ 53
  · refine ⟨significand + 1, exponent, ⟨hbound, h.least, h.filled.imp_left fun hle => hle.trans (Nat.le_succ _)⟩, ?_⟩
    rw [worth_div]
    push_cast
    rfl
  · have heq : significand + 1 = 2 ^ 53 := le_antisymm h.bound (not_lt.mp hbound)
    have heq' : (significand : ℚ) + 1 = 2 ^ 53 := mod_cast heq
    refine ⟨2 ^ 52, exponent + 1, ⟨by decide, h.least.trans (by omega), .inl (by decide)⟩, ?_⟩
    rw [worth, zpow_add_one₀ two_ne_zero, heq', mul_comm (_ ^ exponent), ← mul_assoc,
      mul_div_cancel_right₀ _ (by positivity)]
    norm_num

/-- The double below, in units of the last place. -/
theorem Canonical.exists_below (h : Canonical significand exponent) (hpos : 0 < significand) :
    ∃ other power, Canonical other power ∧
      worth other power / 2 ^ exponent = significand - 2 * gapBelow significand exponent := by
  rcases gapBelow_cases significand exponent with ⟨rfl, hleast, hgap⟩ | ⟨hnot, hgap⟩
  · refine ⟨2 ^ 53 - 1, exponent - 1, ⟨by decide, by omega, .inl (by decide)⟩, ?_⟩
    rw [worth, zpow_sub_one₀ two_ne_zero, hgap, mul_comm (_ ^ exponent), ← mul_assoc,
      mul_div_cancel_right₀ _ (by positivity)]
    norm_num
  · obtain ⟨below, rfl⟩ : ∃ below, significand = below + 1 := ⟨significand - 1, by omega⟩
    have hfilled : 2 ^ 52 ≤ below ∨ exponent = leastExponent := by
      rcases h.filled with hle | heq
      · by_cases hleast : leastExponent < exponent
        · exact .inl (Nat.lt_add_one_iff.mp (lt_of_le_of_ne hle fun heq => hnot ⟨heq.symm, hleast⟩))
        · exact .inr (le_antisymm (not_lt.mp hleast) h.least)
      · exact .inr heq
    refine ⟨below, exponent, ⟨(Nat.lt_succ_self below).trans h.bound, h.least, hfilled⟩, ?_⟩
    rw [worth_div, hgap]
    push_cast
    ring

/-- Which of two points is nearer is told by the point halfway. -/
theorem abs_sub_le_abs_sub_iff {point left right : ℚ} (h : left < right) :
    (|point - right| ≤ |point - left| ↔ left + right ≤ 2 * point) ∧
      (|point - left| ≤ |point - right| ↔ 2 * point ≤ left + right) := by
  have hpos := sub_pos.mpr h
  constructor
  · have hsquares : (point - left) ^ 2 - (point - right) ^ 2 = (right - left) * (2 * point - (left + right)) := by ring
    rw [← sq_le_sq, ← sub_nonneg, hsquares, mul_nonneg_iff_of_pos_left hpos, sub_nonneg]
  · have hsquares : (point - right) ^ 2 - (point - left) ^ 2 = (right - left) * (left + right - 2 * point) := by ring
    rw [← sq_le_sq, ← sub_nonneg, hsquares, mul_nonneg_iff_of_pos_left hpos, sub_nonneg]

/-- The double whose interval a ratio lies in is the nearest one. -/
theorem rounds_iff_nearest (hratio : 0 ≤ ratio) :
    Rounds ratio significand exponent ↔ Nearest ratio significand exponent := by
  have hunit : (0 : ℚ) < 2 ^ exponent := by positivity
  have hscaled : 0 ≤ ratio / 2 ^ exponent := div_nonneg hratio hunit.le
  have hgap := gapBelow_pos significand exponent
  have hle : ∀ other power, |ratio - worth significand exponent| ≤ |ratio - worth other power| ↔
      |ratio / 2 ^ exponent - significand| ≤ |ratio / 2 ^ exponent - worth other power / 2 ^ exponent| := by
    intro other power
    rw [abs_sub_worth ratio exponent, abs_sub_worth ratio exponent other, worth_div, mul_le_mul_iff_left₀ hunit]
  have heq : ∀ other power, |ratio - worth significand exponent| = |ratio - worth other power| ↔
      |ratio / 2 ^ exponent - significand| = |ratio / 2 ^ exponent - worth other power / 2 ^ exponent| := by
    intro other power
    rw [abs_sub_worth ratio exponent, abs_sub_worth ratio exponent other, worth_div, mul_left_inj' hunit.ne']
  constructor
  · intro h
    have habove := h.above
    have hbelow := h.below
    refine ⟨h.canonical, fun other power hother => ?_, fun other power hother htie => ?_⟩
    · by_cases hsame : other = significand ∧ power = exponent
      · rw [hsame.1, hsame.2]
      rw [hle]
      rcases h.canonical.neighbours hother hsame with hother | hother
      · exact (abs_sub_le_abs_sub_iff (by linarith)).1.mpr (by linarith)
      · exact (abs_sub_le_abs_sub_iff (by linarith)).2.mpr (by linarith)
    · rw [or_iff_not_imp_left]
      intro hsame
      have htie := ((heq other power).mp htie).ge
      rcases h.canonical.neighbours hother hsame with hother | hother
      · have hmiddle := (abs_sub_le_abs_sub_iff (by linarith)).2.mp htie
        exact h.even (.inl (by linarith))
      · have hmiddle := (abs_sub_le_abs_sub_iff (by linarith)).1.mp htie
        exact h.even (.inr (by linarith))
  · intro h
    have hhigh : ratio / 2 ^ exponent ≤ significand + 1 / 2 ∧
        (ratio / 2 ^ exponent = significand + 1 / 2 → Even significand) := by
      obtain ⟨other, power, hother, hworth⟩ := h.canonical.exists_above
      obtain ⟨hiff, hiff'⟩ := @abs_sub_le_abs_sub_iff (ratio / 2 ^ exponent) significand _ (lt_add_one _)
      have hnear := (hle other power).mp (h.nearest other power hother)
      rw [hworth] at hnear
      refine ⟨by linarith [hiff'.mp hnear], fun htie => ?_⟩
      have hsame := h.even other power hother ((heq other power).mpr ?_)
      · refine hsame.resolve_left ?_
        rintro ⟨rfl, rfl⟩
        rw [worth_div] at hworth
        linarith
      · rw [hworth]
        exact le_antisymm hnear (hiff.mpr (by linarith))
    have hlow : significand - gapBelow significand exponent ≤ ratio / 2 ^ exponent ∧
        (ratio / 2 ^ exponent = significand - gapBelow significand exponent → Even significand) := by
      rcases Nat.eq_zero_or_pos significand with rfl | hpos
      · refine ⟨?_, fun _ => by decide⟩
        push_cast
        linarith
      obtain ⟨other, power, hother, hworth⟩ := h.canonical.exists_below hpos
      obtain ⟨hiff, hiff'⟩ := @abs_sub_le_abs_sub_iff (ratio / 2 ^ exponent)
        (significand - 2 * gapBelow significand exponent) significand (by linarith)
      have hnear := (hle other power).mp (h.nearest other power hother)
      rw [hworth] at hnear
      refine ⟨by linarith [hiff.mp hnear], fun htie => ?_⟩
      have hsame := h.even other power hother ((heq other power).mpr ?_)
      · refine hsame.resolve_left ?_
        rintro ⟨rfl, rfl⟩
        rw [worth_div] at hworth
        linarith
      · rw [hworth]
        exact le_antisymm hnear (hiff'.mpr (by linarith))
    exact ⟨h.canonical, hlow.1, hhigh.1, fun htie => htie.elim hlow.2 hhigh.2⟩

end Double

end Questionnaire
