import LatencyLog.Proofs.Binary64.Layouts

/-! # The shortest decimal is the best one

The numbers that read as one magnitude have no gaps among them. So a power of ten has a multiple
that reads as a magnitude just if one of the two around its value does, and no multiple is nearer
than both of these. What is written in few digits either is a multiple of the power of ten that
leaves the value that many digits, or lies below the power of ten that the value begins with.

* `WrittenIn`: a number that a count of digits and a power of ten make.
* `Decimal.not_isNearest_of_onGrid?_eq_none`, `Decimal.onGrid?_best`: what the search on one grid
  tells about all decimals on it.
* `Decimal.exists_onGrid_or_lt`: the decimals of a count of digits.
* `Decimal.shortest_is_best`: the shortest decimal among all decimals.
-/

namespace LatencyLog

set_option autoImplicit false

/-- A number that at most `k` digits and a power of ten make. -/
def WrittenIn (k : Nat) (q : ℚ) : Prop := ∃ d : Decimal, d.digits < 10 ^ k ∧ |q| = d.toRat

open Binary64

namespace Decimal

/-! ## One grid -/

section Grid

variable {m n : Nat} {e : ℤ}

/-- No multiple lies between a value and the multiple below it. -/
theorem toRat_le_below (low : toRat ⟨n, e⟩ ≤ valueOf m) : toRat ⟨n, e⟩ ≤ (below m e).toRat := by
  have width := ten_zpow_pos e
  have floor : n ≤ ⌊valueOf m / 10 ^ e⌋₊ :=
    Nat.le_floor ((le_div_iff₀ width).mpr low)
  rw [← digits_below] at floor
  exact mul_le_mul_of_nonneg_right (by exact_mod_cast floor) width.le

/-- No multiple lies between a value and the multiple above it. -/
theorem above_le_toRat (high : valueOf m < toRat ⟨n, e⟩) : (above m e).toRat ≤ toRat ⟨n, e⟩ := by
  have width := ten_zpow_pos e
  have floor : ⌊valueOf m / 10 ^ e⌋₊ < n :=
    (Nat.floor_lt (div_nonneg (valueOf_nonneg m) width.le)).mpr ((div_lt_iff₀ width).mpr high)
  rw [← digits_below] at floor
  exact mul_le_mul_of_nonneg_right (by exact_mod_cast floor) width.le

/-- If a multiple reads as a magnitude, so does the one next to its value on the same side. -/
theorem isNearest_neighbour (reads : IsNearest (toRat ⟨n, e⟩) m) :
    (toRat ⟨n, e⟩ ≤ valueOf m → IsNearest (below m e).toRat m) ∧
      (valueOf m < toRat ⟨n, e⟩ → IsNearest (above m e).toRat m) := by
  have exactly := isNearest_valueOf reads.le_infinity
  constructor
  · intro low
    exact reads.of_between exactly (toRat_le_below low) (toRat_below_le m _)
  · intro high
    exact exactly.of_between reads (lt_toRat_above m _).le (above_le_toRat high)

theorem not_isNearest_of_onGrid?_eq_none (none : onGrid? m e = none) :
    ¬IsNearest (toRat ⟨n, e⟩) m := by
  intro reads
  obtain ⟨low, high⟩ := isNearest_neighbour reads
  have nothing := (onGrid?_isSome_iff m e).not.mp (by rw [none]; exact Bool.false_ne_true)
  rw [not_or, magnitude_eq_iff, magnitude_eq_iff] at nothing
  rcases le_or_gt (toRat ⟨n, e⟩) (valueOf m) with least | greater
  · exact nothing.1 (low least)
  · exact nothing.2 (high greater)

theorem belowIsNearer_iff (m : Nat) (e : ℤ) :
    belowIsNearer m e = true ↔ 2 * valueOf m < (below m e).toRat + (above m e).toRat := by
  have middle : (below m e).toRat + (above m e).toRat =
      (2 * (below m e).digits + 1 : Nat) * 10 ^ e := by
    rw [toRat_above, toRat]
    push_cast
    simp only [below]
    ring
  rw [belowIsNearer, decide_eq_true_eq, middle, ← div_lt_iff₀ (ten_zpow_pos e), mul_div_assoc,
    valueOf_div_zpow, ← mul_div_assoc, div_lt_iff₀ (gridDenominator_pos e)]
  exact_mod_cast Iff.rfl

/-- What is found on a grid is nearest to the value among all multiples that read as it, and of two
equally near it is the greater one. -/
theorem onGrid?_best {best : Decimal} (found : onGrid? m e = some best)
    (reads : IsNearest (toRat ⟨n, e⟩) m) :
    |best.toRat - valueOf m| ≤ |toRat ⟨n, e⟩ - valueOf m| ∧
      (|toRat ⟨n, e⟩ - valueOf m| = |best.toRat - valueOf m| → toRat ⟨n, e⟩ ≤ best.toRat) := by
  obtain ⟨low, high⟩ := isNearest_neighbour reads
  rw [← magnitude_eq_iff] at low high
  have lower := toRat_below_le m e
  have upper := lt_toRat_above m e
  rw [abs_sub_comm, abs_sub_comm (toRat ⟨n, e⟩)]
  obtain ⟨-, ⟨rfl, reason⟩ | ⟨rfl, reason⟩⟩ := onGrid?_cases found
  · rw [abs_of_nonneg (sub_nonneg.mpr lower)]
    rcases le_or_gt (toRat ⟨n, e⟩) (valueOf m) with least | greater
    · have bound := toRat_le_below least
      rw [abs_of_nonneg (sub_nonneg.mpr least)]
      exact ⟨by linarith, fun _ => bound⟩
    · have bound := above_le_toRat greater
      have nearer := (belowIsNearer_iff m e).mp
        (reason.resolve_left fun notHigh => notHigh (high greater))
      rw [abs_of_neg (sub_neg.mpr greater)]
      exact ⟨by linarith, fun _ => by linarith⟩
  · rw [abs_of_neg (sub_neg.mpr upper)]
    rcases le_or_gt (toRat ⟨n, e⟩) (valueOf m) with least | greater
    · have bound := toRat_le_below least
      have nearer := (belowIsNearer_iff m e).not.mp
        (reason.resolve_left fun notLow => notLow (low least))
      rw [abs_of_nonneg (sub_nonneg.mpr least)]
      exact ⟨by linarith, fun _ => by linarith⟩
    · have bound := above_le_toRat greater
      rw [abs_of_neg (sub_neg.mpr greater)]
      exact ⟨by linarith, fun _ => by linarith⟩

end Grid

/-! ## Counts of digits -/

theorem toRat_refine (d : Decimal) {e : ℤ} (le : e ≤ d.exponent) :
    toRat ⟨d.digits * 10 ^ (d.exponent - e).toNat, e⟩ = d.toRat := by
  have power : (10 : ℚ) ^ (d.exponent - e).toNat * 10 ^ e = 10 ^ d.exponent := by
    rw [← zpow_natCast, ← zpow_add₀ (by norm_num)]
    congr 1
    omega
  rw [toRat, toRat, ← power]
  push_cast
  ring

/-- The grid that leaves a value `finer + 1` digits holds everything that is written in so many and
does not lie below the power of ten that the value begins with. -/
theorem exists_onGrid_or_lt (m : Nat) {finer : Nat} {d : Decimal}
    (few : d.digits < 10 ^ (finer + 1)) :
    d.toRat < 10 ^ (places m - 1) ∨
      ∃ n : Nat, toRat ⟨n, places m - 1 - finer⟩ = d.toRat := by
  rcases lt_or_ge d.exponent (places m - 1 - finer) with fine | coarse
  · left
    have digits : (d.digits : ℚ) < 10 ^ (finer + 1) := by exact_mod_cast few
    calc d.toRat < 10 ^ (finer + 1) * 10 ^ d.exponent :=
          mul_lt_mul_of_pos_right digits (ten_zpow_pos _)
      _ = 10 ^ ((finer + 1 : Nat) + d.exponent : ℤ) := by
          rw [zpow_add₀ (by norm_num), zpow_natCast]
      _ ≤ 10 ^ (places m - 1) := zpow_le_zpow_right₀ (by norm_num) (by omega)
  · exact Or.inr ⟨_, toRat_refine d coarse⟩

/-- The power of ten that a value begins with lies on every grid that is as fine. -/
theorem exists_onGrid_leading (m finer : Nat) :
    ∃ n : Nat, toRat ⟨n, places m - 1 - finer⟩ = 10 ^ (places m - 1) := by
  have leading : toRat ⟨1, places m - 1⟩ = 10 ^ (places m - 1) := by
    rw [toRat, Nat.cast_one, one_mul]
  have finest : places m - 1 - finer ≤ places m - 1 := by omega
  exact ⟨_, (toRat_refine ⟨1, places m - 1⟩ finest).trans leading⟩

section Count

variable {m finer : Nat} {best d : Decimal}

/-- What reads as a magnitude below the power of ten that its value begins with is farther away from
the value than this power, which reads so too. -/
theorem isNearest_leading (positive : 0 < m) (low : d.toRat < 10 ^ (places m - 1))
    (reads : IsNearest d.toRat m) : IsNearest (10 ^ (places m - 1)) m :=
  reads.of_between (isNearest_valueOf reads.le_infinity) low.le (zpow_places_le positive)

/-- If no coarser grid has a decimal that reads as a magnitude, then none of fewer digits does. -/
theorem not_isNearest_of_fewer (positive : 0 < m)
    (coarser : ∀ j < finer, onGrid? m (places m - 1 - (j : Nat)) = none)
    (few : d.digits < 10 ^ finer) : ¬IsNearest d.toRat m := by
  intro reads
  cases finer with
  | zero =>
    have nothing : d.toRat = 0 := by
      rw [toRat, Nat.lt_one_iff.mp few, Nat.cast_zero, zero_mul]
    exact not_isNearest_zero positive (nothing ▸ reads)
  | succ finer =>
    rcases exists_onGrid_or_lt m few with low | ⟨n, same⟩
    · have leading := isNearest_leading positive low reads
      obtain ⟨n, same⟩ := exists_onGrid_leading m 0
      rw [← same] at leading
      exact not_isNearest_of_onGrid?_eq_none (coarser 0 (Nat.succ_pos finer)) leading
    · rw [← same] at reads
      exact not_isNearest_of_onGrid?_eq_none (coarser finer (Nat.lt_succ_self finer)) reads

/-- What is found on a grid is the best of all decimals of as many digits. -/
theorem best_of_count (positive : 0 < m)
    (found : onGrid? m (places m - 1 - finer) = some best) (few : d.digits < 10 ^ (finer + 1))
    (reads : IsNearest d.toRat m) :
    |best.toRat - valueOf m| ≤ |d.toRat - valueOf m| ∧
      (|d.toRat - valueOf m| = |best.toRat - valueOf m| → d.toRat ≤ best.toRat) := by
  rcases exists_onGrid_or_lt m few with low | ⟨n, same⟩
  · have leading := isNearest_leading positive low reads
    have value := zpow_places_le positive
    obtain ⟨n, same⟩ := exists_onGrid_leading m finer
    rw [← same] at leading low value
    have nearer := (onGrid?_best found leading).1
    rw [abs_of_nonpos (sub_nonpos.mpr value)] at nearer
    rw [abs_of_neg (sub_neg.mpr (low.trans_le value))]
    exact ⟨by linarith, fun tie => by linarith⟩
  · rw [← same] at reads ⊢
    exact onGrid?_best found reads

/-! ## Significant digits -/

theorem significant_ten_mul {n : Nat} (some : 0 < n) (e e' : ℤ) :
    significant ⟨10 * n, e⟩ = significant ⟨n, e'⟩ := by
  have written : Nat.toDigits 10 (10 * n) = Nat.toDigits 10 n ++ ['0'] :=
    (Nat.toDigits_append_toDigits (b := 10) (d := 0) (by decide) some (by decide)).symm
  rw [significant, significant, written, List.reverse_append]
  rfl

theorem significant_ten_pow (n : Nat) (e : ℤ) : significant ⟨10 ^ n, e⟩ = ['1'] := by
  induction n with
  | zero =>
    have single : Nat.toDigits 10 1 = ['1'] := Nat.toDigits_of_lt_base (by decide)
    rw [pow_zero, significant, single]
    rfl
  | succ n ih => rw [pow_succ', significant_ten_mul (Nat.pow_pos (by decide)) e e, ih]

theorem length_significant_le {d : Decimal} {k : Nat} (some : 0 < k) (few : d.digits ≤ 10 ^ k) :
    d.significant.length ≤ k := by
  rcases few.lt_or_eq with less | same
  · obtain ⟨zeros, split⟩ := exists_toDigits_eq_significant d
    have length := (Nat.length_toDigits_le_iff (by decide) some).mpr less
    rw [split, List.length_append] at length
    exact (Nat.le_add_right _ _).trans length
  · obtain ⟨digits, e⟩ := d
    obtain rfl : digits = 10 ^ k := same
    rw [significant_ten_pow]
    exact some

theorem digits_below_lt (m finer : Nat) :
    (below m (places m - 1 - finer)).digits < 10 ^ (finer + 1) := by
  have width := ten_zpow_pos (places m - 1 - finer)
  have upper := lt_zpow_places m
  have power : (10 : ℚ) ^ places m = 10 ^ (finer + 1) * 10 ^ (places m - 1 - finer : ℤ) := by
    rw [← zpow_natCast, ← zpow_add₀ (by norm_num)]
    congr 1
    push_cast
    ring
  rw [power, ← div_lt_iff₀ width] at upper
  rw [digits_below, Nat.floor_lt (div_nonneg (valueOf_nonneg m) width.le)]
  exact_mod_cast upper

/-- What is found on a grid has no more digits than the grid leaves. -/
theorem length_significant_of_onGrid? (found : onGrid? m (places m - 1 - finer) = some best) :
    best.significant.length ≤ finer + 1 := by
  have less := digits_below_lt m finer
  apply length_significant_le (Nat.succ_pos finer)
  obtain ⟨-, ⟨rfl, -⟩ | ⟨rfl, -⟩⟩ := onGrid?_cases found
  · exact less.le
  · exact less

end Count

/-! ## The shortest decimal -/

/-- **The shortest decimal is the best one.** No decimal of fewer digits reads as the magnitude, and
of those with as many digits that do none is nearer to the value; one as near is no greater. -/
theorem shortest_is_best {m : Nat} (positive : 0 < m) (finite : m ≤ infinity) :
    (∀ d : Decimal, ∀ j < (shortest m).significant.length, d.digits < 10 ^ j →
      ¬IsNearest d.toRat m) ∧
    ∀ d : Decimal, d.digits < 10 ^ (shortest m).significant.length → IsNearest d.toRat m →
      |(shortest m).toRat - valueOf m| ≤ |d.toRat - valueOf m| ∧
        (|d.toRat - valueOf m| = |(shortest m).toRat - valueOf m| →
          d.toRat ≤ (shortest m).toRat) := by
  obtain ⟨finer, -, found, coarser⟩ := exists_onGrid?_shortest positive finite
  have length := length_significant_of_onGrid? found
  constructor
  · intro d j less few
    exact not_isNearest_of_fewer positive coarser
      (few.trans_le (Nat.pow_le_pow_right (by decide) (by omega)))
  · intro d few reads
    exact best_of_count positive found
      (few.trans_le (Nat.pow_le_pow_right (by decide) length)) reads

end Decimal

end LatencyLog
