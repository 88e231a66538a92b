import LatencyLog.Proofs.Average.Range
import LatencyLog.Proofs.Binary64.RelativeError

/-! # How exact averages are

The sum and the count are rounded before they are divided. A count of at most `2 ^ 53` is exact, so
the quotient is off only where the sum is.

* `Binary64.IsRounding`: the number that a rational number is rounded to.
* `Binary64.Adjacent`: two numbers with no other one between them.
* `Tally.average_isRounding_or_adjacent`: the average is the exact quotient rounded, or adjacent to
  that where the sum is more than `2 ^ 53`.
-/

namespace LatencyLog

set_option autoImplicit false

namespace Binary64

/-! ## Neighbours -/

theorem eq_of_magnitude_eq {v w : Binary64} (sign : v.negative = w.negative)
    (same : v.magnitude = w.magnitude) : v = w := by
  obtain ⟨vNegative, vMagnitude, vLt⟩ := v
  obtain ⟨wNegative, wMagnitude, wLt⟩ := w
  obtain rfl : vNegative = wNegative := sign
  obtain rfl : vMagnitude = wMagnitude := same
  rfl

/-- The number nearest to `q`, a tie going to the even magnitude. -/
structure IsRounding (q : ℚ) (v : Binary64) : Prop where
  negative : v.negative = decide (q < 0)
  nearest : IsNearest |q| v.magnitude

/-- Two numbers of different values, with no number between them. -/
structure Adjacent (v w : Binary64) : Prop where
  apart : v.toRat ≠ w.toRat
  nothing_between :
    ∀ x : Binary64, ¬(min v.toRat w.toRat < x.toRat ∧ x.toRat < max v.toRat w.toRat)

theorem IsRounding.unique {q : ℚ} {v w : Binary64} (h : IsRounding q v) (h' : IsRounding q w) :
    v = w :=
  eq_of_magnitude_eq (h.negative.trans h'.negative.symm) (h.nearest.unique h'.nearest)

theorem toRat_of_positive {v : Binary64} (h : v.negative = false) :
    v.toRat = valueOf v.magnitude := by
  rw [toRat, h, if_neg Bool.false_ne_true, absRat_eq_valueOf]

theorem toRat_of_negative {v : Binary64} (h : v.negative = true) :
    v.toRat = -valueOf v.magnitude := by
  rw [toRat, h, if_pos rfl, absRat_eq_valueOf]

theorem IsRounding.toRat_of_neg {q : ℚ} {v : Binary64} (h : IsRounding q v) (negative : q < 0) :
    v.toRat = -valueOf v.magnitude :=
  toRat_of_negative (h.negative.trans (decide_eq_true negative))

theorem IsRounding.toRat_of_nonneg {q : ℚ} {v : Binary64} (h : IsRounding q v) (nonneg : 0 ≤ q) :
    v.toRat = valueOf v.magnitude :=
  toRat_of_positive (h.negative.trans (decide_eq_false nonneg.not_gt))

theorem Adjacent.symm {v w : Binary64} (h : Adjacent v w) : Adjacent w v := by
  refine ⟨h.apart.symm, ?_⟩
  rw [min_comm, max_comm]
  exact h.nothing_between

/-- No number lies between a value and the next one, on either side of zero. -/
theorem not_between_succ (x : Binary64) (m : Nat) :
    ¬(valueOf m < x.toRat ∧ x.toRat < valueOf (m + 1)) ∧
      ¬(-valueOf (m + 1) < x.toRat ∧ x.toRat < -valueOf m) := by
  have lower := valueOf_nonneg m
  have magnitude := valueOf_nonneg x.magnitude
  have between : ¬(valueOf m < valueOf x.magnitude ∧ valueOf x.magnitude < valueOf (m + 1)) := by
    rintro ⟨more, less⟩
    have after := valueOf_strictMono.lt_iff_lt.mp more
    have before := valueOf_strictMono.lt_iff_lt.mp less
    omega
  cases sign : x.negative with
  | false =>
    rw [toRat_of_positive sign]
    exact ⟨between, fun inside => by linarith [inside.2]⟩
  | true =>
    rw [toRat_of_negative sign]
    refine ⟨fun inside => by linarith [inside.1], fun inside => between ⟨?_, ?_⟩⟩
    · linarith [inside.2]
    · linarith [inside.1]

theorem adjacent_of_succ {v w : Binary64} (sign : v.negative = w.negative)
    (succ : w.magnitude = v.magnitude + 1) : Adjacent v w := by
  have step := valueOf_strictMono (Nat.lt_succ_self v.magnitude)
  cases negative : v.negative with
  | false =>
    have lower := toRat_of_positive negative
    have upper := toRat_of_positive (sign.symm.trans negative)
    rw [succ] at upper
    have less : v.toRat < w.toRat := by rwa [lower, upper]
    refine ⟨less.ne, fun x => ?_⟩
    rw [min_eq_left less.le, max_eq_right less.le, lower, upper]
    exact (not_between_succ x v.magnitude).1
  | true =>
    have upper := toRat_of_negative negative
    have lower := toRat_of_negative (sign.symm.trans negative)
    rw [succ] at lower
    have less : w.toRat < v.toRat := by
      rw [lower, upper]
      exact neg_lt_neg step
    refine ⟨less.ne', fun x => ?_⟩
    rw [min_eq_right less.le, max_eq_left less.le, lower, upper]
    exact (not_between_succ x v.magnitude).2

theorem eq_or_adjacent {v w : Binary64} (sign : v.negative = w.negative)
    (above : v.magnitude ≤ w.magnitude + 1) (below : w.magnitude ≤ v.magnitude + 1) :
    v = w ∨ Adjacent v w := by
  rcases lt_trichotomy v.magnitude w.magnitude with less | same | more
  · exact Or.inr (adjacent_of_succ sign (by omega))
  · exact Or.inl (eq_of_magnitude_eq sign same)
  · exact Or.inr (adjacent_of_succ sign.symm (by omega)).symm

end Binary64

open Binary64

namespace Tally

/-! ## The average of few samples -/

variable {t : Tally}

/-- The exact average of one or more samples. -/
def exactMean (t : Tally) : ℚ := (t.sum.toInt : ℚ) / (t.count : ℚ)

theorem abs_exactMean (t : Tally) : |t.exactMean| = |(t.sum.toInt : ℚ)| / (t.count : ℚ) := by
  rw [exactMean, abs_div, Nat.abs_cast]

theorem exactMean_lt_zero_iff (some : t.count ≠ 0) : t.exactMean < 0 ↔ t.sum.toInt < 0 := by
  have positive : (0 : ℚ) < t.count := by exact_mod_cast Nat.pos_of_ne_zero some
  rw [exactMean, div_lt_iff₀ positive, zero_mul, Int.cast_lt_zero]

/-- The exact average, rounded. -/
def roundedMean (t : Tally) : Binary64 :=
  Binary64.round (decide (t.sum.toInt < 0)) t.sum.toInt.natAbs t.count

theorem isRounding_roundedMean (some : t.count ≠ 0) : IsRounding t.exactMean t.roundedMean := by
  constructor
  · rw [decide_eq_decide.mpr (exactMean_lt_zero_iff some)]
    rfl
  · rw [abs_exactMean, ← Int.cast_abs, Int.abs_eq_natAbs, Int.cast_natCast]
    exact isNearest_nearest _ (Nat.pos_of_ne_zero some)

theorem absRat_count (few : t.count ≤ 2 ^ 53) : (ofInt t.count).absRat = t.count := by
  have small : |(t.count : ℤ)| ≤ 2 ^ 53 := by
    rw [Nat.abs_cast]
    exact_mod_cast few
  rw [absRat_ofInt_of_le small, Int.cast_natCast, Nat.abs_cast]

/-- Rounding the sum changes it by no more than the factor of one rounding. -/
theorem close_sum (nonzero : t.sum.toInt ≠ 0) :
    Close roundingFactor (ofInt t.sum.toInt).absRat |(t.sum.toInt : ℚ)| := by
  have one : (1 : ℚ) ≤ |(t.sum.toInt : ℚ)| := by exact_mod_cast Int.one_le_abs nonzero
  have wide : |(t.sum.toInt : ℚ)| ≤ 2 ^ (127 : ℤ) := by
    have lower := t.sum.minValue_le
    have upper := t.sum.le_maxValue
    have within : |t.sum.toInt| ≤ 2 ^ 127 := abs_le.mpr ⟨by omega, by omega⟩
    exact_mod_cast within
  have least : (2 : ℚ) ^ (-1022 : ℤ) ≤ 2 ^ (0 : ℤ) := zpow_le_zpow_right₀ (by norm_num) (by decide)
  have finite := lt_infinity_of_le_zpow (by decide) (by decide)
    (absRat_ofInt_le (by decide) (by decide) wide)
  exact (isNearest_ofInt t.sum.toInt).close (least.trans (by rwa [zpow_zero])) finite

theorem eq_or_adjacent_roundedMean (some : t.count ≠ 0) (few : t.count ≤ 2 ^ 53)
    (nonzero : t.sum.toInt ≠ 0) : t.mean = t.roundedMean ∨ Adjacent t.mean t.roundedMean := by
  have positive : (0 : ℚ) < t.count := by exact_mod_cast Nat.pos_of_ne_zero some
  have nearest := isNearest_mean some
  have exact_ := (isRounding_roundedMean some).nearest
  rw [absRat_count few] at nearest
  rw [abs_exactMean] at exact_
  have close := (close_sum nonzero).div (Close.refl le_rfl positive.le) (absRat_nonneg _)
    (abs_nonneg _) positive positive
  rw [mul_one] at close
  exact eq_or_adjacent (negative_mean t) (exact_.le_succ nearest close.le)
    (nearest.le_succ exact_ close.ge)

theorem mean_eq_roundedMean (some : t.count ≠ 0) (few : t.count ≤ 2 ^ 53)
    (small : |t.sum.toInt| ≤ 2 ^ 53) : t.mean = t.roundedMean := by
  have nearest := isNearest_mean some
  have exact_ := (isRounding_roundedMean some).nearest
  rw [absRat_count few, absRat_ofInt_of_le small, ← abs_exactMean] at nearest
  exact eq_of_magnitude_eq (negative_mean t) (nearest.unique exact_)

theorem toRat_mean_sign (some : t.count ≠ 0) (few : t.count < 2 ^ 64) :
    (0 < t.sum.toInt → 0 < t.mean.toRat) ∧ (t.sum.toInt < 0 → t.mean.toRat < 0) := by
  have sign := negative_mean t
  have bound : t.sum.toInt ≠ 0 → 0 < valueOf t.mean.magnitude := fun nonzero =>
    lt_of_lt_of_le (by positivity) (absRat_mean_bounds some few nonzero).1
  constructor
  · intro positive
    rw [decide_eq_false (by omega)] at sign
    rw [toRat_of_positive sign]
    exact bound (by omega)
  · intro negative
    rw [decide_eq_true negative] at sign
    rw [toRat_of_negative sign]
    exact neg_neg_of_pos (bound (by omega))

/-- **The average of up to `2 ^ 53` samples is the exact quotient rounded**, or adjacent to that
where the sum is itself rounded. It is finite, has the sign of the sum, and is the positive zero
just for the sum zero. -/
theorem average_isRounding_or_adjacent (t : Tally) (some : 1 ≤ t.count) (few : t.count ≤ 2 ^ 53) :
    ∃ f, t.average = .value f ∧ f.isFinite = true ∧ (f = Binary64.zero false ↔ t.sum.toInt = 0) ∧
      (0 < t.sum.toInt → 0 < f.toRat) ∧ (t.sum.toInt < 0 → f.toRat < 0) ∧
      ∃ r, IsRounding ((t.sum.toInt : ℚ) / (t.count : ℚ)) r ∧
        (|t.sum.toInt| ≤ 2 ^ 53 → f = r) ∧ (f = r ∨ Adjacent f r) := by
  have counted : t.count ≠ 0 := by omega
  have fewer : t.count < 2 ^ 64 := by omega
  obtain ⟨positive, negative⟩ := toRat_mean_sign counted fewer
  refine ⟨t.mean, average_eq_mean counted, decide_eq_true (magnitude_mean_lt counted fewer), ?_,
    positive, negative, t.roundedMean, isRounding_roundedMean counted,
    mean_eq_roundedMean counted few, ?_⟩
  · refine ⟨fun zero => ?_, mean_of_sum_zero counted⟩
    have nothing : t.mean.toRat = 0 := by
      rw [zero]
      exact valueOf_zero
    rcases lt_trichotomy t.sum.toInt 0 with less | same | more
    · exact absurd nothing (negative less).ne
    · exact same
    · exact absurd nothing (positive more).ne'
  · by_cases zero : t.sum.toInt = 0
    · exact Or.inl (mean_eq_roundedMean counted few (by rw [zero]; decide))
    · exact eq_or_adjacent_roundedMean counted few zero

/-- Three samples whose average lies just below `2 ^ 60`: the sum is rounded up, and the average is
`2 ^ 60` itself, which is adjacent to the exact quotient rounded. -/
theorem average_adjacent_across_power :
    let t : Tally := ⟨Int128.clamp 3458764513820540672, 3⟩
    1 ≤ t.count ∧ t.count ≤ 2 ^ 53 ∧ ∃ f r, t.average = .value f ∧
      IsRounding ((t.sum.toInt : ℚ) / (t.count : ℚ)) r ∧ f.toBits = 0x43B0000000000000 ∧
        r.toBits = 0x43AFFFFFFFFFFFFF ∧ Adjacent f r := by
  intro t
  obtain ⟨f, average, -, -, -, -, r, rounding, -, near⟩ :=
    average_isRounding_or_adjacent t (by decide) (by decide)
  have first : f.toBits = 0x43B0000000000000 := by
    obtain rfl : f = t.mean := by
      have same := average.symm.trans (average_eq_mean (t := t) (by decide))
      exact Average.value.inj same
    decide +kernel
  have second : r.toBits = 0x43AFFFFFFFFFFFFF := by
    obtain rfl : r = t.roundedMean := rounding.unique (isRounding_roundedMean (by decide))
    decide +kernel
  refine ⟨by decide, by decide, f, r, average, rounding, first, second, ?_⟩
  refine near.resolve_left ?_
  rintro rfl
  exact absurd (first.symm.trans second) (by decide)

end Tally

end LatencyLog
