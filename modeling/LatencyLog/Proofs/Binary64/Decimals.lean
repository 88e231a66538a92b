import LatencyLog.Binary64.Shortest
import LatencyLog.Proofs.Binary64.Rounding
import Mathlib.Algebra.Order.Field.Power
import Mathlib.Algebra.Order.Floor.Semifield
import Mathlib.Tactic.FieldSimp
import Mathlib.Tactic.NormNum

/-! # Decimals that read back

* `Decimal.toRat`: the rational number that a decimal is.
* `Decimal.magnitude_eq_iff`: a decimal reads as the magnitude nearest to it.
* `Decimal.toRat_below_le`, `Decimal.lt_toRat_above`: the two multiples of a power of ten around a
  value.
* `Decimal.zpow_places_le`, `Decimal.lt_zpow_places`: the count of places before the point.
* `Decimal.onGrid?_isSome`: seventeen digits suffice.
* `Decimal.exists_onGrid?_shortest`: the first grid with a decimal that reads back.
* `Decimal.isNearest_shortest`: the shortest decimal reads back.
-/

namespace LatencyLog

set_option autoImplicit false

open Binary64

namespace Decimal

/-! ## Values -/

/-- The rational number that a decimal is. -/
def toRat (d : Decimal) : ℚ := d.digits * 10 ^ d.exponent

theorem ten_zpow_pos (e : ℤ) : (0 : ℚ) < 10 ^ e := zpow_pos (by norm_num) e

theorem ten_zpow_eq_div (e : ℤ) : (10 : ℚ) ^ e = 10 ^ e.toNat / 10 ^ (-e).toNat := by
  rw [← zpow_natCast, ← zpow_natCast, ← zpow_sub₀ (by norm_num)]
  congr 1
  omega

/-- A decimal reads as the magnitude nearest to it. -/
theorem magnitude_eq_iff {d : Decimal} {m : Nat} : d.magnitude = m ↔ IsNearest d.toRat m := by
  have value : ((d.digits * 10 ^ d.exponent.toNat : Nat) : ℚ) / (10 ^ (-d.exponent).toNat : Nat) =
      d.toRat := by
    rw [toRat, ten_zpow_eq_div]
    push_cast
    rw [mul_div_assoc]
  rw [magnitude, Nat.pow_eq, Nat.pow_eq, nearest_eq_iff _ (Nat.pow_pos (by decide)), value]

/-! ## Grids -/

section

variable (m : Nat) (e : ℤ)

theorem gridDenominator_pos : (0 : ℚ) < gridDenominator e := by
  have one := unitsPerOne_pos
  rw [gridDenominator, Nat.pow_eq]
  push_cast
  positivity

theorem valueOf_div_zpow : valueOf m / 10 ^ e = (gridNumerator m e : ℚ) / gridDenominator e := by
  have one := unitsPerOne_pos
  rw [ten_zpow_eq_div, valueOf, gridNumerator, gridDenominator, Nat.pow_eq, Nat.pow_eq]
  push_cast
  field_simp

theorem digits_below : (below m e).digits = ⌊valueOf m / 10 ^ e⌋₊ := by
  rw [valueOf_div_zpow, Nat.floor_div_eq_div, below]

theorem toRat_below_le : (below m e).toRat ≤ valueOf m := by
  have floor := Nat.floor_le (div_nonneg (valueOf_nonneg m) (ten_zpow_pos e).le)
  rwa [← digits_below, le_div_iff₀ (ten_zpow_pos e)] at floor

theorem lt_toRat_above : valueOf m < (above m e).toRat := by
  have floor := Nat.lt_floor_add_one (valueOf m / 10 ^ e)
  rw [← digits_below, div_lt_iff₀ (ten_zpow_pos e)] at floor
  rw [toRat, above]
  push_cast
  exact floor

theorem toRat_above : (above m e).toRat = (below m e).toRat + 10 ^ e := by
  rw [toRat, toRat, above, below]
  push_cast
  ring

theorem onGrid?_isSome_iff :
    (onGrid? m e).isSome ↔ (below m e).magnitude = m ∨ (above m e).magnitude = m := by
  rw [onGrid?]
  split
  next low =>
    refine iff_of_true ?_ (Or.inl low)
    split <;> rfl
  next notLow =>
    split
    next high => exact iff_of_true rfl (Or.inr high)
    next notHigh => exact iff_of_false Bool.false_ne_true (not_or.mpr ⟨notLow, notHigh⟩)

end

/-- What is found on a grid reads back, and there is a reason why it is not the other neighbour. -/
theorem onGrid?_cases {m : Nat} {e : ℤ} {best : Decimal} (found : onGrid? m e = some best) :
    best.magnitude = m ∧
      (best = below m e ∧ ((above m e).magnitude ≠ m ∨ belowIsNearer m e = true) ∨
        best = above m e ∧ ((below m e).magnitude ≠ m ∨ belowIsNearer m e ≠ true)) := by
  rw [onGrid?] at found
  split at found
  next low =>
    split at found
    next both =>
      obtain rfl := Option.some.inj found
      obtain ⟨high, nearer⟩ := Bool.and_eq_true_iff.mp both
      exact ⟨of_decide_eq_true high, Or.inr ⟨rfl, Or.inr (by simpa using nearer)⟩⟩
    next other =>
      obtain rfl := Option.some.inj found
      refine ⟨low, Or.inl ⟨rfl, ?_⟩⟩
      by_cases high : (above m e).magnitude = m
      · right
        by_contra farther
        exact other (Bool.and_eq_true_iff.mpr ⟨decide_eq_true high, by simpa using farther⟩)
      · exact Or.inl high
  next notLow =>
    split at found
    next high =>
      obtain rfl := Option.some.inj found
      exact ⟨high, Or.inr ⟨rfl, Or.inl notLow⟩⟩
    next => cases found

/-! ## Places before the point -/

theorem ten_pow_length_le {n : Nat} (positive : 0 < n) :
    10 ^ ((Nat.toDigits 10 n).length - 1) ≤ n := by
  rcases Nat.eq_zero_or_pos ((Nat.toDigits 10 n).length - 1) with single | more
  · rw [single]
    exact positive
  · have longer := (Nat.length_toDigits_le_iff (b := 10) (n := n) (by decide) more).not
    rw [not_le, not_lt] at longer
    exact longer.mp (by omega)

theorem lt_ten_pow_length (n : Nat) : n < 10 ^ (Nat.toDigits 10 n).length :=
  (Nat.length_toDigits_le_iff (by decide) Nat.length_toDigits_pos).mp le_rfl

section

variable (m shift : Nat)

/-- The digits of a value before the point, after the point is moved to the right. -/
def shifted : List Char := Nat.toDigits 10 (units m * Nat.pow 10 shift / unitsPerOne)

theorem floor_shifted : ⌊valueOf m * 10 ^ shift⌋₊ = units m * Nat.pow 10 shift / unitsPerOne := by
  rw [valueOf, div_mul_eq_mul_div, ← Nat.floor_div_eq_div (K := ℚ), Nat.cast_mul, Nat.pow_eq,
    Nat.cast_pow, Nat.cast_ofNat]

theorem lt_zpow_shifted : valueOf m < 10 ^ ((shifted m shift).length - shift : ℤ) := by
  have digits := Nat.succ_le_of_lt (lt_ten_pow_length (units m * Nat.pow 10 shift / unitsPerOne))
  have floor := Nat.lt_floor_add_one (valueOf m * 10 ^ shift)
  rw [floor_shifted] at floor
  have whole : valueOf m * 10 ^ shift < 10 ^ (shifted m shift).length :=
    floor.trans_le (by exact_mod_cast digits)
  rw [zpow_sub₀ (by norm_num), zpow_natCast, zpow_natCast, lt_div_iff₀ (by positivity)]
  exact whole

variable {m shift}

theorem zpow_shifted_le (positive : 0 < m) (wide : unitsPerOne ≤ Nat.pow 10 shift) :
    (10 : ℚ) ^ ((shifted m shift).length - shift - 1 : ℤ) ≤ valueOf m := by
  have least : 0 < units m := units_strictMono positive
  have one : 0 < unitsPerOne := Nat.cast_pos.mp unitsPerOne_pos
  have whole : 0 < units m * Nat.pow 10 shift / unitsPerOne :=
    Nat.div_pos (wide.trans (Nat.le_mul_of_pos_left _ least)) one
  have digits := ten_pow_length_le whole
  have floor := Nat.floor_le (mul_nonneg (valueOf_nonneg m) (by positivity : (0 : ℚ) ≤ 10 ^ shift))
  rw [floor_shifted] at floor
  have power : ((shifted m shift).length - shift - 1 : ℤ) =
      ((shifted m shift).length - 1 : Nat) - (shift : ℤ) := by
    have some : 0 < (shifted m shift).length := Nat.length_toDigits_pos
    omega
  rw [power, zpow_sub₀ (by norm_num), zpow_natCast, zpow_natCast, div_le_iff₀ (by positivity)]
  refine le_trans ?_ floor
  exact_mod_cast digits

end

theorem places_eq (m : Nat) : places m = (shifted m 324).length - (324 : Nat) := by
  rw [places, shifted]
  congr

/-- The value lies below the power of ten that `places` counts. -/
theorem lt_zpow_places (m : Nat) : valueOf m < 10 ^ places m := by
  rw [places_eq]
  exact lt_zpow_shifted m 324

theorem zpow_places_le {m : Nat} (positive : 0 < m) : (10 : ℚ) ^ (places m - 1) ≤ valueOf m := by
  rw [places_eq]
  refine zpow_shifted_le positive ?_
  decide +kernel

/-! ## Seventeen digits -/

/-- A number that lies nearer to a value than `2 ^ -54` of it reads as its magnitude. -/
theorem isNearest_of_close {q : ℚ} {m : Nat} (finite : m ≤ infinity)
    (close : 2 ^ 54 * |q - valueOf m| < valueOf m) : IsNearest q m := by
  obtain ⟨lower, upper⟩ := abs_lt.mp ((lt_div_iff₀' (by norm_num)).mpr close)
  refine isNearest_iff.mpr ⟨finite, ?_, ?_⟩
  · rintro n rfl
    have gap := valueOf_succ_le n
    have half : valueOf n + valueOf (n + 1) < 2 * q := by linarith
    exact ⟨half.le, fun tie => absurd tie half.ne'⟩
  · intro _
    have gap := valueOf_le_of_succ m
    have half : 2 * q < valueOf m + valueOf (m + 1) := by linarith
    exact ⟨half.le, fun tie => absurd tie half.ne⟩

variable {m : Nat}

/-- On a grid of at most `10 ^ -16` of a value, the nearer of the two decimals around it reads as
its magnitude. -/
theorem onGrid?_isSome_of_fine {e : ℤ} (finite : m ≤ infinity)
    (fine : 10 ^ 16 * 10 ^ e ≤ valueOf m) : (onGrid? m e).isSome := by
  have low := toRat_below_le m e
  have high := lt_toRat_above m e
  have step := toRat_above m e
  have width := ten_zpow_pos e
  rw [onGrid?_isSome_iff, magnitude_eq_iff, magnitude_eq_iff]
  rcases le_total (2 * valueOf m) ((below m e).toRat + (above m e).toRat) with nearLow | nearHigh
  · left
    refine isNearest_of_close finite ?_
    rw [abs_of_nonpos (by linarith)]
    linarith
  · right
    refine isNearest_of_close finite ?_
    rw [abs_of_pos (by linarith)]
    linarith

/-- Seventeen digits always suffice. -/
theorem onGrid?_isSome (positive : 0 < m) (finite : m ≤ infinity) :
    (onGrid? m (places m - 17)).isSome := by
  refine onGrid?_isSome_of_fine finite ?_
  have power : (10 : ℚ) ^ 16 * 10 ^ (places m - 17) = 10 ^ (places m - 1) := by
    rw [← zpow_natCast, ← zpow_add₀ (by norm_num)]
    congr 1
    push_cast
    ring
  rw [power]
  exact zpow_places_le positive

/-! ## The shortest decimal -/

theorem exists_first_of_range {α : Type} {f : Nat → Option α} {n : Nat} (otherwise : α)
    (found : ∃ k < n, (f k).isSome) :
    ∃ k < n, f k = some (((List.range n).findSome? f).getD otherwise) ∧ ∀ j < k, f j = none := by
  obtain ⟨i, inside, isSome⟩ := found
  obtain ⟨a, first⟩ := Option.isSome_iff_exists.mp
    (List.findSome?_isSome_iff.mpr ⟨i, List.mem_range.mpr inside, isSome⟩)
  obtain ⟨before, k, after, split, here, none⟩ := List.findSome?_eq_some_iff.mp first
  have member : k ∈ List.range n := split ▸ List.mem_append_right before List.mem_cons_self
  have less := List.mem_range.mp member
  have sorted : (before ++ k :: after).Pairwise (· < ·) := split ▸ List.pairwise_lt_range
  refine ⟨k, less, ?_, fun j earlier => none j ?_⟩
  · rw [here, first, Option.getD_some]
  · have place : j ∈ before ++ k :: after := split ▸ List.mem_range.mpr (earlier.trans less)
    rcases List.mem_append.mp place with front | rest
    · exact front
    · rcases List.mem_cons.mp rest with rfl | later
      · exact absurd earlier (lt_irrefl j)
      · have greater := List.rel_of_pairwise_cons (List.pairwise_append.mp sorted).2.1 later
        exact absurd earlier greater.not_gt

/-- The first grid with a decimal that reads back gives the shortest one. -/
theorem exists_onGrid?_shortest (positive : 0 < m) (finite : m ≤ infinity) :
    ∃ k < 17, onGrid? m (places m - 1 - (k : Nat)) = some (shortest m) ∧
      ∀ j < k, onGrid? m (places m - 1 - (j : Nat)) = none := by
  have last : places m - 1 - (16 : Nat) = places m - 17 := by omega
  have isSome := onGrid?_isSome positive finite
  rw [← last] at isSome
  rw [shortest]
  exact exists_first_of_range _ ⟨16, by decide, isSome⟩

/-- The shortest decimal reads back. -/
theorem isNearest_shortest (positive : 0 < m) (finite : m ≤ infinity) :
    IsNearest (shortest m).toRat m := by
  obtain ⟨k, -, found, -⟩ := exists_onGrid?_shortest positive finite
  exact magnitude_eq_iff.mp (onGrid?_cases found).1

theorem digits_shortest_pos (positive : 0 < m) (finite : m ≤ infinity) :
    0 < (shortest m).digits := by
  by_contra none
  have zero : (shortest m).toRat = 0 := by
    rw [toRat, Nat.eq_zero_of_not_pos none, Nat.cast_zero, zero_mul]
  exact not_isNearest_zero positive (zero ▸ isNearest_shortest positive finite)

end Decimal

end LatencyLog
