import LatencyLog.Proofs.Average.Saturation
import LatencyLog.Proofs.Average.Text
import LatencyLog.Proofs.Binary64.Powers

/-! # Which averages there are

The average of one or more samples, fewer than `2 ^ 64` of them, is the positive zero or has an
absolute value from `2 ^ -64` to `2 ^ 127`.

* `Tally.mean`: the average of one or more samples, as a number.
* `Tally.mean_of_sum_zero`, `Tally.absRat_mean_bounds`: its range.
* `Tally.form_text_mean`, `Tally.text_mean_notMem`: how it is printed.
-/

namespace LatencyLog

set_option autoImplicit false

open Binary64

/-! ## Integers as numbers -/

namespace Binary64

theorem negative_ofInt (i : ℤ) : (ofInt i).negative = decide (i < 0) := rfl

theorem negative_div (a b : Binary64) : (a.div b).negative = (a.negative ^^ b.negative) := rfl

theorem absRat_ofInt_zero : (ofInt 0).absRat = 0 := by
  have nearest := isNearest_ofInt 0
  rw [Int.cast_zero, abs_zero, ← valueOf_zero] at nearest
  rw [absRat_eq_valueOf, nearest.unique (isNearest_valueOf (Nat.zero_le _)), valueOf_zero]

theorem one_le_absRat_ofInt {i : ℤ} (h : i ≠ 0) : 1 ≤ (ofInt i).absRat := by
  have one : (1 : ℚ) ≤ |(i : ℚ)| := by exact_mod_cast Int.one_le_abs h
  have bound := (isNearest_ofInt i).zpow_le (e := 0) (by decide) (by decide) (by rwa [zpow_zero])
  rwa [zpow_zero] at bound

theorem absRat_ofInt_le {i e : ℤ} (least : -1022 ≤ e) (greatest : e ≤ 1024)
    (h : |(i : ℚ)| ≤ 2 ^ e) : (ofInt i).absRat ≤ 2 ^ e :=
  (isNearest_ofInt i).le_zpow least greatest h

theorem absUnits_ofInt_ne_zero {i : ℤ} (h : i ≠ 0) : (ofInt i).absUnits ≠ 0 := by
  intro zero
  have one := one_le_absRat_ofInt h
  rw [absRat, zero, Nat.cast_zero, zero_div] at one
  exact absurd one (by norm_num)

end Binary64

namespace Tally

/-! ## The range of the mean -/

/-- The average of one or more samples. -/
def mean (t : Tally) : Binary64 := (ofInt t.sum.toInt).div (ofInt t.count)

variable {t : Tally}

theorem average_eq_mean (some : t.count ≠ 0) : t.average = .value t.mean := if_neg some

theorem negative_mean (t : Tally) : t.mean.negative = decide (t.sum.toInt < 0) := by
  have count : ¬((t.count : ℤ) < 0) := by omega
  rw [mean, negative_div, negative_ofInt, negative_ofInt, decide_eq_false count, Bool.xor_false]

theorem isNearest_mean (some : t.count ≠ 0) :
    IsNearest ((ofInt t.sum.toInt).absRat / (ofInt t.count).absRat) t.mean.magnitude :=
  isNearest_div _ _ (absUnits_ofInt_ne_zero (by omega))

/-- A sum of zero has the positive zero for its mean. -/
theorem mean_of_sum_zero (some : t.count ≠ 0) (zero : t.sum.toInt = 0) :
    t.mean = Binary64.zero false := by
  have sign := negative_mean t
  have nearest := isNearest_mean some
  rw [zero, absRat_ofInt_zero, zero_div, ← valueOf_zero] at nearest
  have magnitude : t.mean.magnitude = 0 := nearest.unique (isNearest_valueOf (Nat.zero_le _))
  rw [zero] at sign
  rw [Binary64.zero]
  generalize t.mean = v at sign magnitude
  obtain ⟨negative, m, lt⟩ := v
  obtain rfl : negative = false := sign
  obtain rfl : m = 0 := magnitude
  rfl

theorem absRat_mean_bounds (some : t.count ≠ 0) (few : t.count < 2 ^ 64)
    (nonzero : t.sum.toInt ≠ 0) :
    2 ^ (-64 : ℤ) ≤ t.mean.absRat ∧ t.mean.absRat ≤ 2 ^ (127 : ℤ) := by
  have wide : |(t.sum.toInt : ℚ)| ≤ 2 ^ (127 : ℤ) := by
    have lower := t.sum.minValue_le
    have upper := t.sum.le_maxValue
    have within : |t.sum.toInt| ≤ 2 ^ 127 := abs_le.mpr ⟨by omega, by omega⟩
    exact_mod_cast within
  have short : |((t.count : ℤ) : ℚ)| ≤ 2 ^ (64 : ℤ) := by
    rw [Int.cast_natCast, Nat.abs_cast]
    exact_mod_cast few.le
  have sumLower := one_le_absRat_ofInt nonzero
  have sumUpper := absRat_ofInt_le (by decide) (by decide) wide
  have countLower := one_le_absRat_ofInt (i := t.count) (by omega)
  have countUpper := absRat_ofInt_le (by decide) (by decide) short
  have positive : 0 < (ofInt t.count).absRat := by linarith
  have nearest := isNearest_mean some
  constructor
  · refine nearest.zpow_le (by decide) (by decide) ?_
    rw [le_div_iff₀ positive]
    calc (2 : ℚ) ^ (-64 : ℤ) * (ofInt t.count).absRat
        ≤ 2 ^ (-64 : ℤ) * 2 ^ (64 : ℤ) := mul_le_mul_of_nonneg_left countUpper (by positivity)
      _ = 1 := by rw [← zpow_add₀ (by norm_num)]; rfl
      _ ≤ (ofInt t.sum.toInt).absRat := sumLower
  · refine nearest.le_zpow (by decide) (by decide) ?_
    rw [div_le_iff₀ positive]
    calc (ofInt t.sum.toInt).absRat
        ≤ 2 ^ (127 : ℤ) := sumUpper
      _ ≤ 2 ^ (127 : ℤ) * (ofInt t.count).absRat :=
        le_mul_of_one_le_right (by positivity) countLower

theorem magnitude_mean_lt (some : t.count ≠ 0) (few : t.count < 2 ^ 64) :
    t.mean.magnitude < infinity := by
  by_cases zero : t.sum.toInt = 0
  · rw [mean_of_sum_zero some zero]
    decide
  · exact lt_infinity_of_le_zpow (by decide) (by decide) (absRat_mean_bounds some few zero).2

/-! ## The text of the mean -/

theorem isNaN_mean (some : t.count ≠ 0) (few : t.count < 2 ^ 64) : t.mean.isNaN = false :=
  decide_eq_false (magnitude_mean_lt some few).le.not_gt

/-- The mean is written positionally, or with an exponent of two digits. -/
theorem form_text_mean (some : t.count ≠ 0) (few : t.count < 2 ^ 64) :
    ∃ body, t.mean.text.toList = signed t.mean.negative body ∧
      (PositionalForm body ∨ ScientificForm 2 body) := by
  refine ⟨_, toList_text (isNaN_mean some few), ?_⟩
  by_cases range : InPositionalRange t.mean.magnitude
  · exact Or.inl (positionalForm_magnitudeText (magnitude_mean_lt some few) range)
  · have nonzero : t.sum.toInt ≠ 0 := by
      intro zero
      rw [mean_of_sum_zero some zero] at range
      exact range (Or.inl rfl)
    obtain ⟨lower, upper⟩ := absRat_mean_bounds some few nonzero
    exact Or.inr (scientificForm_two lower (upper.trans (by norm_num)) range)

theorem mean_ne_negative_zero (some : t.count ≠ 0) (few : t.count < 2 ^ 64) :
    t.mean ≠ Binary64.zero true := by
  intro same
  by_cases zero : t.sum.toInt = 0
  · rw [mean_of_sum_zero some zero] at same
    cases same
  · have lower := (absRat_mean_bounds some few zero).1
    have nothing : (Binary64.zero true).absRat = 0 := valueOf_zero
    rw [same, nothing] at lower
    exact lower.not_gt (by positivity)

/-- The mean is printed as a number that is not infinite, and not as the negative zero. -/
theorem text_mean_notMem (some : t.count ≠ 0) (few : t.count < 2 ^ 64) :
    t.mean.text ∉ ["NaN", "inf", "-inf", "-0.0"] := by
  have number := isNaN_mean some few
  obtain ⟨body, written, form⟩ := form_text_mean some few
  obtain ⟨c, rest, rfl, digit⟩ : ∃ c rest, body = c :: rest ∧ c.isDigit = true :=
    form.elim PositionalForm.exists_digit ScientificForm.exists_digit
  -- The text begins with a digit, perhaps after a sign, and the first three do not.
  have begins : ∀ negative d after, d ≠ '-' → t.mean.text.toList = signed negative (d :: after) →
      d.isDigit = true :=
    fun _ _ _ other same => isDigit_of_signed_eq digit other (written.symm.trans same)
  intro member
  rcases List.mem_cons.mp member with same | member
  · exact absurd (begins false 'N' ['a', 'N'] (by decide) (by rw [same]; rfl)) (by decide)
  rcases List.mem_cons.mp member with same | member
  · exact absurd (begins false 'i' ['n', 'f'] (by decide) (by rw [same]; rfl)) (by decide)
  rcases List.mem_cons.mp member with same | member
  · exact absurd (begins true 'i' ['n', 'f'] (by decide) (by rw [same]; rfl)) (by decide)
  · have same := List.mem_singleton.mp member
    have zeroText : (Binary64.zero true).text = "-0.0" := by decide +kernel
    have reads := (isReading_text_iff (v := Binary64.zero true) (by decide) _).mpr rfl
    rw [zeroText, ← same] at reads
    exact mean_ne_negative_zero some few ((isReading_text_iff number _).mp reads).symm

end Tally

end LatencyLog
