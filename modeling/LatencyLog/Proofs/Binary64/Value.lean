import LatencyLog.Binary64.Basic
import Mathlib.Data.Rat.Floor
import Mathlib.Tactic.Positivity

/-! # Values of binary64 numbers

* `Binary64.toRat`: the rational number that a finite binary64 number is.
* `towardZero`: a rational number cut off toward zero.
* `Binary64.truncate_eq_towardZero`: what `Binary64.truncate` computes.
-/

namespace LatencyLog

set_option autoImplicit false

/-! ## Cutting off -/

def towardZero (q : ℚ) : ℤ := if 0 ≤ q then ⌊q⌋ else ⌈q⌉

theorem towardZero_of_nonneg {q : ℚ} (h : 0 ≤ q) : towardZero q = ⌊q⌋ := if_pos h

theorem towardZero_neg (q : ℚ) : towardZero (-q) = -towardZero q := by
  rcases lt_trichotomy q 0 with negative | zero | positive
  · have flipped : 0 ≤ -q := by linarith
    rw [towardZero_of_nonneg flipped, towardZero, if_neg (not_le.mpr negative), Int.floor_neg]
  · rw [zero]
    rfl
  · have flipped : ¬0 ≤ -q := by linarith
    rw [towardZero, if_neg flipped, towardZero_of_nonneg positive.le, Int.ceil_neg]

namespace Binary64

/-! ## Values -/

/-- The absolute value, as a rational number. -/
def absRat (a : Binary64) : ℚ := (a.absUnits : ℚ) / (unitsPerOne : ℚ)

/-- The rational number that a finite binary64 number is. -/
def toRat (a : Binary64) : ℚ := if a.negative then -a.absRat else a.absRat

theorem absRat_nonneg (a : Binary64) : 0 ≤ a.absRat := by
  rw [absRat]
  positivity

theorem floor_absRat (a : Binary64) : ⌊a.absRat⌋ = (a.absUnits / unitsPerOne : Nat) :=
  Rat.floor_natCast_div_natCast a.absUnits unitsPerOne

/-- `truncate` cuts the value off toward zero. -/
theorem truncate_eq_towardZero (a : Binary64) : a.truncate = towardZero a.toRat := by
  have whole : towardZero a.absRat = (a.absUnits / unitsPerOne : Nat) := by
    rw [towardZero_of_nonneg a.absRat_nonneg, floor_absRat]
  cases sign : a.negative with
  | true =>
    rw [toRat, sign, if_pos rfl, towardZero_neg, whole, truncate, sign]
    exact if_pos rfl
  | false =>
    rw [toRat, sign, if_neg Bool.false_ne_true, whole, truncate, sign]
    exact if_neg Bool.false_ne_true

end Binary64

end LatencyLog
