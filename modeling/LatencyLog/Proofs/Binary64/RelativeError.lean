import LatencyLog.Proofs.Binary64.Powers

/-! # The relative error of rounding

* `Close`: neither of two numbers is more than some factor times the other.
* `Binary64.IsNearest.close`: rounding changes a number that is not very small by no more than the
  factor `1 + 2 ^ -53`.
* `Binary64.IsNearest.le_succ`: two numbers within this factor of each other have nearest magnitudes
  that are equal or neighbours.
* `Binary64.exists_valueOf_eq`: the numbers of at most 53 bits are not changed at all.
-/

namespace LatencyLog

set_option autoImplicit false

/-! ## Closeness -/

/-- Neither number is more than `r` times the other. -/
structure Close (r a b : ℚ) : Prop where
  le : a ≤ r * b
  ge : b ≤ r * a

namespace Close

variable {r s a b c d : ℚ}

theorem refl (h : 1 ≤ r) (nonneg : 0 ≤ a) : Close r a a :=
  ⟨le_mul_of_one_le_left nonneg h, le_mul_of_one_le_left nonneg h⟩

theorem mono (h : Close r a b) (le : r ≤ s) (ha : 0 ≤ a) (hb : 0 ≤ b) : Close s a b :=
  ⟨h.le.trans (mul_le_mul_of_nonneg_right le hb), h.ge.trans (mul_le_mul_of_nonneg_right le ha)⟩

theorem trans (h : Close r a b) (h' : Close s b c) (hr : 0 ≤ r) (hs : 0 ≤ s) :
    Close (r * s) a c where
  le := calc
    a ≤ r * b := h.le
    _ ≤ r * (s * c) := mul_le_mul_of_nonneg_left h'.le hr
    _ = r * s * c := (mul_assoc r s c).symm
  ge := calc
    c ≤ s * b := h'.ge
    _ ≤ s * (r * a) := mul_le_mul_of_nonneg_left h.ge hs
    _ = r * s * a := by ring

theorem mul (h : Close r a b) (h' : Close s c d) (ha : 0 ≤ a) (hb : 0 ≤ b) (hc : 0 ≤ c)
    (hd : 0 ≤ d) : Close (r * s) (a * c) (b * d) where
  le := calc
    a * c ≤ r * b * (s * d) := mul_le_mul h.le h'.le hc (ha.trans h.le)
    _ = r * s * (b * d) := by ring
  ge := calc
    b * d ≤ r * a * (s * c) := mul_le_mul h.ge h'.ge hd (hb.trans h.ge)
    _ = r * s * (a * c) := by ring

theorem inv (h : Close r a b) (ha : 0 < a) (hb : 0 < b) : Close r a⁻¹ b⁻¹ where
  le := by
    rw [inv_le_iff_one_le_mul₀ ha, mul_assoc, ← div_eq_inv_mul, ← mul_div_assoc, le_div_iff₀ hb,
      one_mul]
    exact h.ge
  ge := by
    rw [inv_le_iff_one_le_mul₀ hb, mul_assoc, ← div_eq_inv_mul, ← mul_div_assoc, le_div_iff₀ ha,
      one_mul]
    exact h.le

theorem div (h : Close r a b) (h' : Close s c d) (ha : 0 ≤ a) (hb : 0 ≤ b) (hc : 0 < c)
    (hd : 0 < d) : Close (r * s) (a / c) (b / d) := by
  rw [div_eq_mul_inv, div_eq_mul_inv]
  exact h.mul (h'.inv hc hd) ha hb (inv_pos.mpr hc).le (inv_pos.mpr hd).le

end Close

namespace Binary64

/-! ## Gaps of normal magnitudes -/

variable {q q' : ℚ} {m n : Nat}

/-- From the least normal magnitude on, the gap above a magnitude is at most `2 ^ -52` of it. -/
theorem gap_le_units (normal : 2 ^ 52 ≤ m) : 2 ^ 52 * gap m ≤ units m := by
  rw [units_of_le normal]
  exact Nat.mul_le_mul_right _ (Nat.le_add_right _ _)

theorem valueOf_succ_sub_le (normal : 2 ^ 52 ≤ m) :
    2 ^ 52 * (valueOf (m + 1) - valueOf m) ≤ valueOf m := by
  have bound : (2 : ℚ) ^ 52 * gap m ≤ units m := by exact_mod_cast gap_le_units normal
  rw [valueOf_succ, add_sub_cancel_left, valueOf, ← mul_div_assoc]
  exact div_le_div_of_nonneg_right bound unitsPerOne_pos.le

theorem valueOf_leastNormal : valueOf (2 ^ 52) = 2 ^ (-1022 : ℤ) := by
  rw [← valueOf_binade le_rfl]
  rfl

/-! ## Rounding -/

/-- The factor by which one rounding may change a number. -/
def roundingFactor : ℚ := 1 + 1 / 2 ^ 53

theorem one_le_roundingFactor : 1 ≤ roundingFactor := by
  rw [roundingFactor]
  norm_num

/-- A number that is not very small, and not so large that it is rounded to infinity, is rounded to
one close to it. -/
theorem IsNearest.close (h : IsNearest q m) (normal : 2 ^ (-1022 : ℤ) ≤ q) (finite : m < infinity) :
    Close roundingFactor (valueOf m) q := by
  obtain ⟨-, above, below⟩ := isNearest_iff.mp h
  have least : 2 ^ 52 ≤ m := by
    have bound := h.zpow_le le_rfl (by decide) normal
    rw [← valueOf_leastNormal] at bound
    exact valueOf_strictMono.le_iff_le.mp bound
  rcases le_or_gt (valueOf m) q with le | less
  · have half := (below finite).1
    have small := valueOf_succ_sub_le least
    constructor <;> rw [roundingFactor] <;> linarith
  · have beyond : 2 ^ 52 < m := by
      rw [← valueOf_leastNormal] at normal
      exact valueOf_strictMono.lt_iff_lt.mp (normal.trans_lt less)
    obtain ⟨before, rfl⟩ := Nat.exists_eq_succ_of_ne_zero (Nat.ne_zero_of_lt beyond)
    have half := (above before rfl).1
    have small := valueOf_succ_sub_le (Nat.le_of_lt_succ beyond)
    constructor <;> rw [roundingFactor] <;> linarith

/-- A number that is more than another one by no more than the factor of a rounding is rounded at
most one magnitude further. -/
theorem IsNearest.le_succ (h : IsNearest q m) (h' : IsNearest q' n)
    (close : q' ≤ roundingFactor * q) :
    n ≤ m + 1 := by
  by_contra further
  rw [not_le] at further
  obtain ⟨finite', above, -⟩ := isNearest_iff.mp h'
  obtain ⟨-, -, below⟩ := isNearest_iff.mp h
  -- The numbers lie on either side of two halves of gaps, and each gap is at least `2 ^ -53` of the
  -- value between them.
  have lower := (below (by omega)).1
  have upper := (above.of_lt further).1
  have after := valueOf_strictMono.monotone (Nat.succ_le_of_lt further)
  have gapBelow := valueOf_succ_le m
  have gapAbove := valueOf_le_of_succ (m + 1)
  have step := valueOf_strictMono (Nat.lt_succ_self m)
  rw [roundingFactor] at close
  linarith

/-! ## Numbers of 53 bits -/

theorem exists_units_eq {n : Nat} (small : n < 2 ^ 53) (k : Nat) : ∃ m, units m = n * 2 ^ k := by
  refine ⟨magnitudeBelow (n * 2 ^ k), ?_⟩
  rw [(units_magnitudeBelow _).1]
  apply Nat.div_mul_cancel
  refine Dvd.dvd.mul_left (pow_dvd_pow 2 ?_) n
  rcases Nat.eq_zero_or_pos (n * 2 ^ k) with zero | positive
  · rw [zero]
    exact Nat.zero_le _
  · have bits : n * 2 ^ k < 2 ^ (53 + k) := by
      rw [pow_add]
      exact Nat.mul_lt_mul_of_pos_right small (Nat.two_pow_pos k)
    have log := (Nat.log2_lt positive.ne').mpr bits
    omega

theorem valueOf_infinity : valueOf infinity = 2 ^ (1024 : ℤ) := by
  rw [← valueOf_binade (by decide)]
  rfl

/-- A number of at most 53 bits before zeros, and no more than 1024 bits in all, is the value of a
magnitude. -/
theorem exists_valueOf_eq {n : Nat} (small : n < 2 ^ 53) {k : Nat} (finite : k ≤ 971) :
    ∃ m ≤ infinity, valueOf m = n * 2 ^ k := by
  have unit := unitsPerOne_eq
  generalize (1074 : Nat) = places at unit
  obtain ⟨m, same⟩ := exists_units_eq small (k + places)
  have value : valueOf m = n * 2 ^ k := by
    rw [valueOf, same, unit, zpow_natCast, pow_add, ← mul_assoc]
    push_cast
    exact mul_div_cancel_right₀ _ (by positivity)
  refine ⟨m, ?_, value⟩
  rw [← valueOf_strictMono.le_iff_le, value, valueOf_infinity]
  calc (n : ℚ) * 2 ^ k
      ≤ 2 ^ 53 * 2 ^ 971 :=
        mul_le_mul (by exact_mod_cast small.le) (pow_le_pow_right₀ (by norm_num) finite)
          (by positivity) (by positivity)
    _ = 2 ^ (1024 : ℤ) := by
        rw [← pow_add, ← zpow_natCast]
        rfl

theorem exists_valueOf_eq_natCast {n : Nat} (small : n ≤ 2 ^ 53) :
    ∃ m ≤ infinity, valueOf m = n := by
  rcases Nat.lt_or_eq_of_le small with less | rfl
  · obtain ⟨m, finite, value⟩ := exists_valueOf_eq less (Nat.zero_le 971)
    exact ⟨m, finite, by rw [value, pow_zero, mul_one]⟩
  · obtain ⟨m, finite, value⟩ := exists_valueOf_eq (n := 1) (k := 53) (by decide) (by decide)
    refine ⟨m, finite, ?_⟩
    rw [value]
    norm_num

/-- A value of a magnitude is not changed by rounding. -/
theorem IsNearest.valueOf_eq (h : IsNearest q m) (representable : ∃ n ≤ infinity, valueOf n = q) :
    valueOf m = q := by
  obtain ⟨n, finite, rfl⟩ := representable
  rw [h.unique (isNearest_valueOf finite)]

theorem absRat_ofInt_of_le {i : ℤ} (small : |i| ≤ 2 ^ 53) : (ofInt i).absRat = |(i : ℚ)| := by
  have nearest := isNearest_ofInt i
  rw [Int.abs_eq_natAbs] at small
  rw [← Int.cast_abs, Int.abs_eq_natAbs, Int.cast_natCast] at nearest ⊢
  exact nearest.valueOf_eq (exists_valueOf_eq_natCast (by exact_mod_cast small))

end Binary64

end LatencyLog
