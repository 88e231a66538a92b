import LatencyLog.Proofs.Binary64.Value
import Mathlib.Tactic.Ring

/-! # The list of magnitudes

Magnitudes count the absolute values in ascending order.

* `Binary64.gap`: how far it is from a magnitude to the next one, in units.
* `Binary64.units_strictMono`: a greater magnitude has a greater value.
* `Binary64.units_magnitudeBelow_le`, `Binary64.lt_units_succ_magnitudeBelow`: the greatest
  magnitude whose value is at most some units.
* `Binary64.units_le_gap`, `Binary64.units_succ_le_gap`: a gap is at least `2 ^ -53` of the values
  at its ends.
* `Binary64.valueOf`: the value of a magnitude as a rational number.
-/

namespace LatencyLog.Binary64

set_option autoImplicit false

/-! ## Gaps -/

/-- How many units it is from a magnitude to the next one. -/
def gap (m : Nat) : Nat := 2 ^ (m / 2 ^ 52 - 1)

theorem gap_pos (m : Nat) : 0 < gap m := Nat.two_pow_pos _

theorem units_of_lt {m : Nat} (h : m < 2 ^ 52) : units m = m := if_pos h

theorem units_of_le {m : Nat} (h : 2 ^ 52 ≤ m) : units m = (2 ^ 52 + m % 2 ^ 52) * gap m := by
  rw [units, if_neg (Nat.not_lt.mpr h), Nat.pow_eq, gap]

theorem gap_of_lt {m : Nat} (h : m < 2 ^ 53) : gap m = 1 := by
  have small : m / 2 ^ 52 - 1 = 0 := by omega
  rw [gap, small, pow_zero]

theorem units_succ (m : Nat) : units (m + 1) = units m + gap m := by
  by_cases small : m + 1 < 2 ^ 52
  · rw [units_of_lt small, units_of_lt (Nat.lt_of_succ_lt small), gap_of_lt (by omega)]
  · by_cases first : m + 1 = 2 ^ 52
    · rw [units_of_le (by omega), units_of_lt (by omega), gap_of_lt (by omega),
        gap_of_lt (by omega)]
      omega
    · have large : 2 ^ 52 ≤ m := by omega
      rw [units_of_le large, units_of_le (by omega)]
      by_cases wraps : m % 2 ^ 52 + 1 = 2 ^ 52
      · -- The significand is full: the next one is half as large, in units twice as large.
        have power : (m + 1) / 2 ^ 52 - 1 = m / 2 ^ 52 - 1 + 1 := by omega
        have rest : (m + 1) % 2 ^ 52 = 0 := by omega
        have full : m % 2 ^ 52 = 2 ^ 52 - 1 := by omega
        rw [gap, gap, power, rest, full, pow_succ]
        ring
      · have power : (m + 1) / 2 ^ 52 - 1 = m / 2 ^ 52 - 1 := by omega
        have rest : (m + 1) % 2 ^ 52 = m % 2 ^ 52 + 1 := by omega
        rw [gap, gap, power, rest]
        ring

theorem units_strictMono : StrictMono units := by
  apply strictMono_nat_of_lt_succ
  intro m
  rw [units_succ]
  exact Nat.lt_add_of_pos_right (gap_pos m)

theorem units_zero : units 0 = 0 := rfl

/-! ## The greatest magnitude below a value -/

theorem units_magnitudeBelow (x : Nat) :
    units (magnitudeBelow x) = x / 2 ^ (x.log2 - 52) * 2 ^ (x.log2 - 52) ∧
      gap (magnitudeBelow x) = 2 ^ (x.log2 - 52) := by
  rw [magnitudeBelow, Nat.pow_eq]
  generalize hs : x.log2 - 52 = shift
  by_cases none : shift = 0
  · have small : x < 2 ^ 53 := by
      by_cases zero : x = 0
      · omega
      · exact (Nat.log2_lt zero).mp (by omega)
    rw [none, pow_zero, Nat.div_one, Nat.mul_one, Nat.zero_mul, Nat.zero_add, gap_of_lt small]
    refine ⟨?_, rfl⟩
    by_cases tiny : x < 2 ^ 52
    · exact units_of_lt tiny
    · rw [units_of_le (by omega), gap_of_lt small]
      omega
  · have nonzero : x ≠ 0 := by
      rintro rfl
      simp at hs
      omega
    have bits : x.log2 = 52 + shift := by omega
    have lower : 2 ^ 52 ≤ x / 2 ^ shift := by
      rw [Nat.le_div_iff_mul_le (Nat.two_pow_pos _), ← pow_add, ← bits]
      exact Nat.log2_self_le nonzero
    have upper : x / 2 ^ shift < 2 ^ 53 := by
      rw [Nat.div_lt_iff_lt_mul (Nat.two_pow_pos _), ← pow_add]
      exact (Nat.log2_lt nonzero).mp (by omega)
    have power : gap (shift * 2 ^ 52 + x / 2 ^ shift) = 2 ^ shift := by
      have place : (shift * 2 ^ 52 + x / 2 ^ shift) / 2 ^ 52 - 1 = shift := by omega
      rw [gap, place]
    refine ⟨?_, power⟩
    have rest : 2 ^ 52 + (shift * 2 ^ 52 + x / 2 ^ shift) % 2 ^ 52 = x / 2 ^ shift := by omega
    rw [units_of_le (by omega), power, rest]

theorem units_magnitudeBelow_le (x : Nat) : units (magnitudeBelow x) ≤ x := by
  rw [(units_magnitudeBelow x).1]
  exact Nat.div_mul_le_self _ _

theorem lt_units_succ_magnitudeBelow (x : Nat) : x < units (magnitudeBelow x + 1) := by
  obtain ⟨value, step⟩ := units_magnitudeBelow x
  rw [units_succ, value, step]
  exact Nat.lt_div_mul_add (Nat.two_pow_pos _)

/-! ## Gaps and values -/

theorem units_le_gap (m : Nat) : units m ≤ 2 ^ 53 * gap m := by
  by_cases small : m < 2 ^ 52
  · rw [units_of_lt small, gap_of_lt (by omega)]
    omega
  · rw [units_of_le (by omega)]
    exact Nat.mul_le_mul_right _ (by omega)

theorem units_succ_le_gap (m : Nat) : units (m + 1) ≤ 2 ^ 53 * gap m := by
  by_cases small : m < 2 ^ 52
  · have bound := units_le_gap m
    rw [units_succ, units_of_lt small, gap_of_lt (by omega)]
    omega
  · rw [units_succ, units_of_le (by omega), ← Nat.succ_mul]
    exact Nat.mul_le_mul_right _ (by omega)

/-! ## Values -/

/-- The value of a magnitude. That of infinity is `2 ^ 1024`. -/
def valueOf (m : Nat) : ℚ := (units m : ℚ) / (unitsPerOne : ℚ)

theorem unitsPerOne_pos : (0 : ℚ) < (unitsPerOne : ℚ) := by
  rw [unitsPerOne]
  positivity

theorem absRat_eq_valueOf (a : Binary64) : a.absRat = valueOf a.magnitude := rfl

theorem valueOf_strictMono : StrictMono valueOf := by
  intro m n less
  have apart : (units m : ℚ) < units n := by exact_mod_cast units_strictMono less
  exact div_lt_div_of_pos_right apart unitsPerOne_pos

theorem valueOf_zero : valueOf 0 = 0 := by
  rw [valueOf, units_zero, Nat.cast_zero, zero_div]

theorem valueOf_nonneg (m : Nat) : 0 ≤ valueOf m :=
  valueOf_zero ▸ valueOf_strictMono.monotone (Nat.zero_le m)

theorem valueOf_succ (m : Nat) : valueOf (m + 1) = valueOf m + (gap m : ℚ) / (unitsPerOne : ℚ) := by
  rw [valueOf, valueOf, units_succ, Nat.cast_add, add_div]

/-- The gap on either side of a magnitude is at least `2 ^ -53` of its value. -/
theorem valueOf_le_of_succ (m : Nat) : valueOf m ≤ 2 ^ 53 * (valueOf (m + 1) - valueOf m) := by
  have bound : (units m : ℚ) ≤ 2 ^ 53 * gap m := by exact_mod_cast units_le_gap m
  rw [valueOf_succ, add_sub_cancel_left, valueOf, ← mul_div_assoc]
  exact div_le_div_of_nonneg_right bound unitsPerOne_pos.le

theorem valueOf_succ_le (m : Nat) : valueOf (m + 1) ≤ 2 ^ 53 * (valueOf (m + 1) - valueOf m) := by
  have bound : (units (m + 1) : ℚ) ≤ 2 ^ 53 * gap m := by exact_mod_cast units_succ_le_gap m
  rw [valueOf_succ, add_sub_cancel_left, ← valueOf_succ, valueOf, ← mul_div_assoc]
  exact div_le_div_of_nonneg_right bound unitsPerOne_pos.le

end LatencyLog.Binary64
