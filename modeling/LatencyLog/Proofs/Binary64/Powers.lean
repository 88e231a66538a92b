import LatencyLog.Proofs.Binary64.ReadBack

/-! # Powers of two

* `Binary64.binade`: the magnitude of a power of two.
* `Binary64.IsNearest.zpow_le`, `Binary64.IsNearest.le_zpow`: rounding does not lead across a power
  of two.
* `Decimal.zpow_point_le`, `Decimal.lt_zpow_point`: the place of the point is that of the value.
* `Binary64.scientificForm_two`: a value that is neither very small nor very large has an exponent
  of two digits.
-/

namespace LatencyLog

set_option autoImplicit false

namespace Binary64

/-! ## Binades -/

/-- The magnitude of `2 ^ e`. -/
def binade (e : ℤ) : Nat := (e + 1023).toNat * 2 ^ 52

theorem units_mul_two_pow {k : Nat} (positive : 0 < k) :
    units (k * 2 ^ 52) = 2 ^ (52 + (k - 1)) := by
  have place : k * 2 ^ 52 / 2 ^ 52 - 1 = k - 1 := by omega
  have rest : k * 2 ^ 52 % 2 ^ 52 = 0 := by omega
  rw [units_of_le (by omega), gap, place, rest, Nat.add_zero, pow_add]

theorem cast_two_pow (n : Nat) : ((Nat.pow 2 n : Nat) : ℚ) = 2 ^ (n : ℤ) := by
  rw [Nat.pow_eq, Nat.cast_pow, Nat.cast_ofNat, zpow_natCast]

theorem unitsPerOne_eq : (unitsPerOne : ℚ) = 2 ^ ((1074 : Nat) : ℤ) := by
  rw [unitsPerOne, ← cast_two_pow]
  congr

theorem valueOf_binade {e : ℤ} (least : -1022 ≤ e) : valueOf (binade e) = 2 ^ e := by
  have positive : 0 < (e + 1023).toNat := by omega
  have power : ((52 + ((e + 1023).toNat - 1) : Nat) : ℤ) - (1074 : Nat) = e := by omega
  rw [valueOf, binade, units_mul_two_pow positive, unitsPerOne_eq, Nat.cast_pow, Nat.cast_ofNat,
    ← zpow_natCast, ← zpow_sub₀ (by norm_num), power]

theorem binade_le_infinity {e : ℤ} (greatest : e ≤ 1024) : binade e ≤ infinity := by
  rw [binade, infinity]
  omega

variable {q : ℚ} {m : Nat} {e : ℤ}

theorem IsNearest.zpow_le (h : IsNearest q m) (least : -1022 ≤ e) (greatest : e ≤ 1024)
    (le : 2 ^ e ≤ q) : 2 ^ e ≤ valueOf m := by
  rw [← valueOf_binade least] at le ⊢
  exact valueOf_strictMono.monotone
    ((isNearest_valueOf (binade_le_infinity greatest)).mono h le)

theorem IsNearest.le_zpow (h : IsNearest q m) (least : -1022 ≤ e) (greatest : e ≤ 1024)
    (le : q ≤ 2 ^ e) : valueOf m ≤ 2 ^ e := by
  rw [← valueOf_binade least] at le ⊢
  exact valueOf_strictMono.monotone
    (h.mono (isNearest_valueOf (binade_le_infinity greatest)) le)

theorem lt_infinity_of_le_zpow (least : -1022 ≤ e) (greatest : e < 1024) (le : valueOf m ≤ 2 ^ e) :
    m < infinity := by
  have below : binade e < infinity := by
    rw [binade, infinity]
    omega
  rw [← valueOf_binade least] at le
  exact (valueOf_strictMono.le_iff_le.mp le).trans_lt below

end Binary64

namespace Decimal

variable {d : Decimal}

/-! ## The place of the point -/

theorem zpow_point_le (positive : 0 < d.digits) : (10 : ℚ) ^ (d.point - 1) ≤ d.toRat := by
  have digits := ten_pow_length_le positive
  have places : d.point - 1 = ((Nat.toDigits 10 d.digits).length - 1 : Nat) + d.exponent := by
    have some : 0 < (Nat.toDigits 10 d.digits).length := Nat.length_toDigits_pos
    rw [point]
    omega
  rw [places, zpow_add₀ (by norm_num), zpow_natCast, toRat]
  exact mul_le_mul_of_nonneg_right (by exact_mod_cast digits) (ten_zpow_pos _).le

theorem lt_zpow_point (d : Decimal) : d.toRat < 10 ^ d.point := by
  have digits := lt_ten_pow_length d.digits
  rw [point, zpow_add₀ (by norm_num), zpow_natCast, toRat]
  exact mul_lt_mul_of_pos_right (by exact_mod_cast digits) (ten_zpow_pos _)

end Decimal

namespace Binary64

variable {m : Nat}

/-- A value from `2 ^ -64` to `2 ^ 128` has its first digit within a hundred places of the point. -/
theorem natAbs_point_shortest_lt (lower : 2 ^ (-64 : ℤ) ≤ valueOf m)
    (upper : valueOf m ≤ 2 ^ (128 : ℤ)) : ((Decimal.shortest m).point - 1).natAbs < 100 := by
  have positive : 0 < m := by
    refine Nat.pos_of_ne_zero ?_
    rintro rfl
    rw [valueOf_zero] at lower
    exact lower.not_gt (by positivity)
  have finite := (lt_infinity_of_le_zpow (by decide) (by decide) upper).le
  have nearest := Decimal.isNearest_shortest positive finite
  have above : (2 : ℚ) ^ (-65 : ℤ) ≤ (Decimal.shortest m).toRat := by
    by_contra less
    have small := nearest.le_zpow (by decide) (by decide) (not_le.mp less).le
    exact absurd (lower.trans small) (by norm_num)
  have below : (Decimal.shortest m).toRat ≤ 2 ^ (129 : ℤ) := by
    by_contra more
    have large := nearest.zpow_le (by decide) (by decide) (not_le.mp more).le
    exact absurd (large.trans upper) (by norm_num)
  have first := Decimal.zpow_point_le (Decimal.digits_shortest_pos positive finite)
  have last := Decimal.lt_zpow_point (Decimal.shortest m)
  have highest : (10 : ℚ) ^ ((Decimal.shortest m).point - 1) < 10 ^ (40 : ℤ) :=
    (first.trans below).trans_lt (by norm_num)
  have lowest : (10 : ℚ) ^ (-20 : ℤ) < 10 ^ (Decimal.shortest m).point :=
    lt_trans (by norm_num) (above.trans_lt last)
  have high := (zpow_lt_zpow_iff_right₀ (by norm_num)).mp highest
  have low := (zpow_lt_zpow_iff_right₀ (by norm_num)).mp lowest
  omega

theorem scientificForm_two (lower : 2 ^ (-64 : ℤ) ≤ valueOf m) (upper : valueOf m ≤ 2 ^ (128 : ℤ))
    (range : ¬InPositionalRange m) : ScientificForm 2 (magnitudeText m) := by
  have finite := lt_infinity_of_le_zpow (by decide) (by decide) upper
  have form := scientificForm_magnitudeText finite range
  have digits := (Nat.length_toDigits_le_iff (b := 10) (k := 2) (by decide) (by decide)).mpr
    (natAbs_point_shortest_lt lower upper)
  rwa [max_eq_left digits] at form

end Binary64

end LatencyLog
