import LatencyLog.Json.Literal
import LatencyLog.Proofs.Average.Range
import LatencyLog.Proofs.Binary64.RelativeError
import Mathlib.Data.Nat.Cast.Order.Field

/-! # Significands scaled by powers of ten

* `Json.scaled?_close`: a scaled number is close to the exact product or quotient, unless that is
  small.
* `Json.scaled?_of_exact`: where the significand, the power of ten and their product have no more
  than 53 bits each, a product is exact, and a quotient has the whole part of the exact one.
-/

namespace LatencyLog

set_option autoImplicit false

namespace Binary64

/-! ## Products and powers of ten -/

theorem isNearest_mul (a b : Binary64) :
    IsNearest (a.absRat * b.absRat) (a.mul b).magnitude := by
  have one := unitsPerOne_pos
  have rounded := isNearest_nearest (a.absUnits * b.absUnits)
    (Nat.mul_pos (Nat.cast_pos.mp one) (Nat.cast_pos.mp one))
  rwa [Nat.cast_mul, Nat.cast_mul, ← div_mul_div_comm] at rounded

theorem isNearest_powerOfTen (n : Nat) : IsNearest (10 ^ n) (powerOfTen n).magnitude := by
  have rounded := isNearest_nearest (Nat.pow 10 n) Nat.one_pos
  rw [Nat.pow_eq, Nat.cast_pow, Nat.cast_ofNat, Nat.cast_one, div_one] at rounded
  exact rounded

theorem one_le_absRat_powerOfTen (n : Nat) : 1 ≤ (powerOfTen n).absRat := by
  have bound := (isNearest_powerOfTen n).zpow_le (e := 0) (by decide) (by decide)
    (by rw [zpow_zero]; exact one_le_pow₀ (by norm_num))
  rwa [zpow_zero] at bound

theorem magnitude_powerOfTen_lt {n : Nat} (finite : n ≤ Json.maxPower) :
    (powerOfTen n).magnitude < infinity := by
  have greatest : (powerOfTen Json.maxPower).magnitude < infinity := by decide +kernel
  refine lt_of_le_of_lt ?_ greatest
  exact (isNearest_powerOfTen n).mono (isNearest_powerOfTen _)
    (pow_le_pow_right₀ (by norm_num) finite)

theorem normal_of_one_le {q : ℚ} (h : 1 ≤ q) : 2 ^ (-1022 : ℤ) ≤ q := by
  refine le_trans ?_ h
  rw [← zpow_zero (2 : ℚ)]
  exact zpow_le_zpow_right₀ (by norm_num) (by decide)

theorem close_powerOfTen {n : Nat} (finite : n ≤ Json.maxPower) :
    Close roundingFactor (powerOfTen n).absRat (10 ^ n) :=
  (isNearest_powerOfTen n).close (normal_of_one_le (one_le_pow₀ (by norm_num)))
    (magnitude_powerOfTen_lt finite)

/-- The powers of ten up to `10 ^ 22` have no more than 53 bits before their zeros. -/
theorem absRat_powerOfTen {n : Nat} (small : n ≤ 22) : (powerOfTen n).absRat = 10 ^ n := by
  have bits : 5 ^ n < 2 ^ 53 := (Nat.pow_le_pow_right (by decide) small).trans_lt (by decide)
  obtain ⟨m, finite, value⟩ := exists_valueOf_eq (k := n) bits (by omega)
  refine (isNearest_powerOfTen n).valueOf_eq ⟨m, finite, ?_⟩
  rw [value, Nat.cast_pow, Nat.cast_ofNat, ← mul_pow]
  norm_num

/-! ## Significands -/

section

variable {s : Nat}

theorem absRat_ofInt_natCast_le (small : s < 2 ^ 64) : (ofInt s).absRat ≤ 2 ^ (64 : ℤ) := by
  refine absRat_ofInt_le (by decide) (by decide) ?_
  rw [Int.cast_natCast, Nat.abs_cast]
  exact_mod_cast small.le

theorem isNearest_ofInt_natCast (s : Nat) : IsNearest s (ofInt s).magnitude := by
  have nearest := isNearest_ofInt s
  rwa [Int.cast_natCast, Nat.abs_cast] at nearest

theorem absRat_ofInt_natCast_mono {t : Nat} (le : s ≤ t) : (ofInt s).absRat ≤ (ofInt t).absRat :=
  valueOf_strictMono.monotone
    ((isNearest_ofInt_natCast s).mono (isNearest_ofInt_natCast t) (by exact_mod_cast le))

theorem close_ofInt_natCast (small : s < 2 ^ 64) : Close roundingFactor (ofInt s).absRat s := by
  rcases Nat.eq_zero_or_pos s with rfl | positive
  · rw [Nat.cast_zero, absRat_ofInt_zero, Nat.cast_zero]
    exact Close.refl one_le_roundingFactor le_rfl
  · refine (isNearest_ofInt_natCast s).close (normal_of_one_le (by exact_mod_cast positive)) ?_
    exact lt_infinity_of_le_zpow (by decide) (by decide) (absRat_ofInt_natCast_le small)

theorem absRat_ofInt_natCast (small : s ≤ 2 ^ 53) : (ofInt s).absRat = s := by
  rw [absRat_ofInt_of_le (by rw [Nat.abs_cast]; exact_mod_cast small), Int.cast_natCast,
    Nat.abs_cast]

theorem eq_zero_of_isZero_ofInt (zero : (ofInt s).isZero = true) : s = 0 := by
  by_contra nonzero
  have one := one_le_absRat_ofInt (i := s) (by omega)
  rw [absRat_eq_valueOf, beq_iff_eq.mp zero, valueOf_zero] at one
  exact absurd one (by norm_num)

end

end Binary64

namespace Json

open Binary64

/-! ## Scaling down -/

theorem isNearest_div_powerOfTen (a : Binary64) (n : Nat) :
    IsNearest (a.absRat / (powerOfTen n).absRat) (a.div (powerOfTen n)).magnitude := by
  refine isNearest_div a _ fun zero => ?_
  have one := one_le_absRat_powerOfTen n
  rw [absRat, zero, Nat.cast_zero, zero_div] at one
  exact absurd one (by norm_num)

theorem absRat_div_powerOfTen_le {a : Binary64} (finite : a.magnitude ≤ infinity) (n : Nat) :
    (a.div (powerOfTen n)).absRat ≤ a.absRat := by
  refine valueOf_strictMono.monotone
    ((isNearest_div_powerOfTen a n).mono (isNearest_valueOf finite) ?_)
  exact div_le_self a.absRat_nonneg (one_le_absRat_powerOfTen n)

theorem magnitude_div_le (a b : Binary64) : (a.div b).magnitude ≤ infinity :=
  nearest_le_infinity _ _

theorem absRat_divideDown_le {a : Binary64} (finite : a.magnitude ≤ infinity) (last times : Nat) :
    (divideDown last times a).absRat ≤ a.absRat := by
  induction times generalizing a with
  | zero => exact absRat_div_powerOfTen_le finite last
  | succ times ih =>
    rw [divideDown]
    split
    · exact le_rfl
    · exact (ih (magnitude_div_le _ _)).trans (absRat_div_powerOfTen_le finite _)

theorem negative_divideDown (last times : Nat) (a : Binary64) :
    (divideDown last times a).negative = a.negative := by
  induction times generalizing a with
  | zero => exact Bool.xor_false _
  | succ times ih =>
    rw [divideDown]
    split
    · rfl
    · rw [ih]
      exact Bool.xor_false _

variable {s : Nat}

/-- A quotient by more than `10 ^ 308` is small. -/
theorem absRat_divideDown_lt (small : s < 2 ^ 64) (last times : Nat) :
    (divideDown last (times + 1) (ofInt s)).absRat < 1 / 2 := by
  rw [divideDown]
  split
  · next zero =>
    rw [eq_zero_of_isZero_ofInt zero, Nat.cast_zero, absRat_ofInt_zero]
    norm_num
  · have wide : (2 : ℚ) ^ (100 : ℤ) ≤ (powerOfTen maxPower).absRat := by
      refine (isNearest_powerOfTen maxPower).zpow_le (by decide) (by decide) ?_
      calc (2 : ℚ) ^ (100 : ℤ) ≤ 10 ^ 31 := by norm_num
        _ ≤ 10 ^ maxPower := pow_le_pow_right₀ (by norm_num) (by decide)
    have one := one_le_absRat_powerOfTen maxPower
    have quotient : (ofInt s).absRat / (powerOfTen maxPower).absRat ≤ 2 ^ (-36 : ℤ) := by
      rw [div_le_iff₀ (by linarith)]
      calc (ofInt s).absRat ≤ 2 ^ (64 : ℤ) := absRat_ofInt_natCast_le small
        _ = 2 ^ (-36 : ℤ) * 2 ^ (100 : ℤ) := by norm_num
        _ ≤ 2 ^ (-36 : ℤ) * (powerOfTen maxPower).absRat :=
          mul_le_mul_of_nonneg_left wide (by positivity)
    have first :=
      (isNearest_div_powerOfTen (ofInt s) maxPower).le_zpow (by decide) (by decide) quotient
    refine ((absRat_divideDown_le (magnitude_div_le _ _) last times).trans first).trans_lt ?_
    norm_num

/-! ## Scaled numbers -/

/-- Three roundings: of the significand, of the power of ten, and of the result. -/
def scalingFactor : ℚ := roundingFactor * (roundingFactor * roundingFactor)

theorem one_le_scalingFactor : 1 ≤ scalingFactor := by
  rw [scalingFactor, roundingFactor]
  norm_num

/-- The numbers are close, or both of them are small. -/
def CloseOrSmall (r a b : ℚ) : Prop := Close r a b ∨ a < 1 / 2 ∧ b < 1 / 2

variable {a : Binary64}

/-- The last rounding, after those of the two operands. -/
theorem close_of_operands {q exact_ : ℚ} {m : Nat} (nearest : IsNearest q m)
    (normal : 2 ^ (-1022 : ℤ) ≤ q) (finite : m < infinity)
    (operands : Close (roundingFactor * roundingFactor) q exact_) :
    Close scalingFactor (valueOf m) exact_ := by
  have nonneg : 0 ≤ roundingFactor := zero_le_one.trans one_le_roundingFactor
  exact (nearest.close normal finite).trans operands nonneg (mul_nonneg nonneg nonneg)

theorem eq_zero_of_multiplyUp {e : Nat} (large : maxPower < e)
    (h : multiplyUp? e (ofInt s) = some a) : s = 0 ∧ a = ofInt s := by
  rw [multiplyUp?, if_neg (Nat.not_le.mpr large)] at h
  split at h
  · next zero => exact ⟨eq_zero_of_isZero_ofInt zero, (Option.some.inj h).symm⟩
  · cases h

theorem eq_mul_of_multiplyUp {e : Nat} (small : e ≤ maxPower) {b : Binary64}
    (h : multiplyUp? e b = some a) : a = b.mul (powerOfTen e) ∧ a.magnitude < infinity := by
  rw [multiplyUp?, if_pos small] at h
  dsimp only at h
  split at h
  · cases h
  · next finite =>
    obtain rfl := Option.some.inj h
    exact ⟨rfl, lt_of_le_of_ne (nearest_le_infinity _ _) fun same => finite (beq_iff_eq.mpr same)⟩

theorem negative_ofInt_natCast (s : Nat) : (ofInt s).negative = false :=
  (negative_ofInt s).trans (decide_eq_false (by omega))

theorem close_zero {r : ℚ} {e : ℤ} (zero : a.absRat = 0) :
    Close r a.absRat ((0 : Nat) * 10 ^ e) := by
  rw [zero, Nat.cast_zero, zero_mul]
  exact ⟨by rw [mul_zero], by rw [mul_zero]⟩

theorem close_mul_powerOfTen {e : Nat} (small : s < 2 ^ 64) (fits : e ≤ maxPower)
    (finite : ((ofInt s).mul (powerOfTen e)).magnitude < infinity) :
    Close scalingFactor ((ofInt s).mul (powerOfTen e)).absRat (s * 10 ^ (e : ℤ)) := by
  have nearest := isNearest_mul (ofInt s) (powerOfTen e)
  rcases Nat.eq_zero_or_pos s with rfl | positive
  · rw [Nat.cast_zero, absRat_ofInt_zero, zero_mul] at nearest
    exact close_zero (nearest.valueOf_eq ⟨0, Nat.zero_le _, valueOf_zero⟩)
  · have one := one_le_absRat_ofInt (i := s) (by omega)
    have one' := one_le_absRat_powerOfTen e
    rw [zpow_natCast]
    exact close_of_operands nearest (normal_of_one_le (one_le_mul_of_one_le_of_one_le one one'))
      finite ((close_ofInt_natCast small).mul (close_powerOfTen fits) (absRat_nonneg _)
        (Nat.cast_nonneg s) (absRat_nonneg _) (by positivity))

/-- A quotient by a power of ten is close to the exact one, or both are small, since only a quotient
below the least normal number may be further off. -/
theorem closeOrSmall_div_powerOfTen {e : Nat} (small : s < 2 ^ 64) (fits : e ≤ maxPower) :
    CloseOrSmall scalingFactor ((ofInt s).div (powerOfTen e)).absRat (s * 10 ^ (-(e : ℤ))) := by
  have nearest := isNearest_div_powerOfTen (ofInt s) e
  have positive : 0 < (powerOfTen e).absRat := zero_lt_one.trans_le (one_le_absRat_powerOfTen e)
  have operands := (close_ofInt_natCast small).div (close_powerOfTen fits) (absRat_nonneg _)
    (Nat.cast_nonneg s) positive (by positivity)
  rw [zpow_neg, zpow_natCast, ← div_eq_mul_inv]
  rcases le_or_gt ((2 : ℚ) ^ (-1022 : ℤ)) ((ofInt s).absRat / (powerOfTen e).absRat) with
    normal | tiny
  · refine Or.inl (close_of_operands nearest normal ?_ operands)
    have less := absRat_div_powerOfTen_le (a := ofInt s) (nearest_le_infinity _ _) e
    exact lt_infinity_of_le_zpow (by decide) (by decide)
      (less.trans (absRat_ofInt_natCast_le small))
  · have bound : (2 : ℚ) ^ (-1022 : ℤ) ≤ 2 ^ (-10 : ℤ) :=
      zpow_le_zpow_right₀ (by norm_num) (by decide)
    have below := tiny.le.trans bound
    refine Or.inr ⟨?_, ?_⟩
    · exact (nearest.le_zpow (by decide) (by decide) below).trans_lt (by norm_num)
    · calc (s : ℚ) / 10 ^ e
          ≤ roundingFactor * roundingFactor * ((ofInt s).absRat / (powerOfTen e).absRat) :=
            operands.ge
        _ ≤ roundingFactor * roundingFactor * 2 ^ (-10 : ℤ) :=
            mul_le_mul_of_nonneg_left below (by rw [roundingFactor]; norm_num)
        _ < 1 / 2 := by rw [roundingFactor]; norm_num

theorem natCast_mul_zpow_lt (small : s < 2 ^ 64) {e : ℤ} (low : e ≤ -20) :
    (s : ℚ) * 10 ^ e < 1 / 2 := by
  calc (s : ℚ) * 10 ^ e ≤ 2 ^ 64 * 10 ^ (-20 : ℤ) :=
        mul_le_mul (by exact_mod_cast small.le) (zpow_le_zpow_right₀ (by norm_num) low)
          (by positivity) (by positivity)
    _ < 1 / 2 := by norm_num

theorem scaled?_ofNat (s n : Nat) : scaled? s (n : ℤ) = multiplyUp? n (ofInt s) := rfl

theorem scaled?_negSucc (s n : Nat) : scaled? s (Int.negSucc n) =
    some (divideDown (n % maxPower + 1) (n / maxPower) (ofInt s)) := rfl

theorem negative_of_scaled? {e : ℤ} (h : scaled? s e = some a) : a.negative = false := by
  have sign := negative_ofInt_natCast s
  cases e with
  | ofNat n =>
    rcases Nat.lt_or_ge maxPower n with large | fits
    · rw [(eq_zero_of_multiplyUp large h).2, sign]
    · rw [(eq_mul_of_multiplyUp fits h).1, Binary64.mul, Binary64.round, sign]
      rfl
  | negSucc n =>
    rw [scaled?_negSucc] at h
    rw [← Option.some.inj h, negative_divideDown, sign]

/-- **A scaled number is close to the exact one**, or both are small. -/
theorem closeOrSmall_of_scaled? {e : ℤ} (small : s < 2 ^ 64) (h : scaled? s e = some a) :
    CloseOrSmall scalingFactor a.absRat (s * 10 ^ e) := by
  cases e with
  | ofNat n =>
    rcases Nat.lt_or_ge maxPower n with large | fits
    · obtain ⟨rfl, rfl⟩ := eq_zero_of_multiplyUp large h
      exact Or.inl (close_zero (by rw [Nat.cast_zero, absRat_ofInt_zero]))
    · obtain ⟨rfl, finite⟩ := eq_mul_of_multiplyUp fits h
      exact Or.inl (close_mul_powerOfTen small fits finite)
  | negSucc n =>
    rw [scaled?_negSucc] at h
    obtain rfl := Option.some.inj h
    rw [Int.negSucc_eq]
    rcases Nat.eq_zero_or_pos (n / maxPower) with once | more
    · have last : n < maxPower := (Nat.div_eq_zero_iff_lt (by decide)).mp once
      rw [once, Nat.mod_eq_of_lt last]
      exact_mod_cast closeOrSmall_div_powerOfTen small last
    · obtain ⟨times, same⟩ := Nat.exists_eq_succ_of_ne_zero more.ne'
      have long : maxPower ≤ n := (Nat.div_pos_iff.mp more).2
      rw [maxPower] at long
      rw [same]
      exact Or.inr ⟨absRat_divideDown_lt small _ times, natCast_mul_zpow_lt small (by omega)⟩

/-- An exponent beyond 32 bits is as good as the nearest one that has 32 bits. -/
theorem closeOrSmall_of_clampExponent {e : ℤ} (small : s < 2 ^ 64)
    (h : scaled? s (Literal.clampExponent e) = some a) :
    CloseOrSmall scalingFactor a.absRat (s * 10 ^ e) := by
  have close := closeOrSmall_of_scaled? small h
  rcases lt_or_ge e (-2 ^ 31) with low | lower
  · have clamped : Literal.clampExponent e = Int.negSucc (2 ^ 31 - 1) := by
      rw [Literal.clampExponent]
      omega
    rw [clamped, scaled?_negSucc] at h
    obtain rfl := Option.some.inj h
    exact Or.inr ⟨absRat_divideDown_lt small _ _, natCast_mul_zpow_lt small (by omega)⟩
  · rcases le_or_gt e (2 ^ 31 - 1) with upper | high
    · have same : Literal.clampExponent e = e := by
        rw [Literal.clampExponent]
        omega
      rwa [same] at close
    · have clamped : Literal.clampExponent e = ((2 ^ 31 - 1 : Nat) : ℤ) := by
        rw [Literal.clampExponent]
        omega
      rw [clamped] at h
      obtain ⟨rfl, rfl⟩ := eq_zero_of_multiplyUp (by decide) h
      exact Or.inl (close_zero (by rw [Nat.cast_zero, absRat_ofInt_zero]))

/-! ## Exact products and whole parts of quotients -/

/-- A quotient of a nonzero significand of 53 bits by a small power of ten is rounded within the
factor of a rounding, since it is neither tiny nor large. -/
theorem close_of_isNearest_quotient {k m : Nat} (some : 1 ≤ s) (small : s ≤ 2 ^ 53) (few : k ≤ 22)
    (h : IsNearest ((s : ℚ) / 10 ^ k) m) : Close roundingFactor (valueOf m) (s / 10 ^ k) := by
  have one : (1 : ℚ) ≤ s := by exact_mod_cast some
  have normal : (2 : ℚ) ^ (-1022 : ℤ) ≤ s / 10 ^ k := by
    calc (2 : ℚ) ^ (-1022 : ℤ) ≤ 2 ^ (-80 : ℤ) := zpow_le_zpow_right₀ (by norm_num) (by decide)
      _ ≤ 1 / 10 ^ 22 := by norm_num
      _ ≤ s / 10 ^ k := div_le_div₀ (by positivity) one (by positivity)
        (pow_le_pow_right₀ (by norm_num) few)
  have below : (s : ℚ) / 10 ^ k ≤ 2 ^ 53 :=
    (div_le_self (by positivity) (one_le_pow₀ (by norm_num))).trans (by exact_mod_cast small)
  exact h.close normal (lt_infinity_of_le_zpow (e := 53) (by decide) (by decide)
    (h.le_zpow (by decide) (by decide) below))

/-- Rounding a quotient of a significand of 53 bits by a power of ten does not lead to the next
integer: the multiple of ten above the significand would have to be `2 ^ 53 + 1`. -/
theorem lt_succ_of_isNearest_quotient {k m : Nat} (small : s ≤ 2 ^ 53) (positive : 0 < k)
    (few : k ≤ 22) (h : IsNearest ((s : ℚ) / 10 ^ k) m) :
    valueOf m < (s / 10 ^ k : Nat) + 1 := by
  rcases Nat.eq_zero_or_pos s with rfl | some
  · rw [Nat.cast_zero, zero_div] at h
    rw [h.valueOf_eq ⟨0, Nat.zero_le _, valueOf_zero⟩]
    positivity
  · by_contra reached
    rw [not_lt] at reached
    have bound := reached.trans (close_of_isNearest_quotient some small few h).le
    rw [← mul_div_assoc, le_div_iff₀ (by positivity), roundingFactor] at bound
    have whole : (s / 10 ^ k + 1) * 10 ^ k * 2 ^ 53 ≤ (2 ^ 53 + 1) * s := by
      have scaled : ((s / 10 ^ k : Nat) + 1 : ℚ) * 10 ^ k * 2 ^ 53 ≤ (2 ^ 53 + 1) * s := by
        linarith
      exact_mod_cast scaled
    have above : s < (s / 10 ^ k + 1) * 10 ^ k := by
      rw [Nat.succ_mul]
      exact Nat.lt_div_mul_add (Nat.pow_pos (by decide))
    obtain ⟨rest, tens⟩ : 10 ∣ (s / 10 ^ k + 1) * 10 ^ k :=
      Dvd.dvd.mul_left (dvd_pow_self 10 positive.ne') _
    omega

theorem floor_of_isNearest_quotient {k m : Nat} (small : s ≤ 2 ^ 53) (positive : 0 < k)
    (few : k ≤ 22) (h : IsNearest ((s : ℚ) / 10 ^ k) m) :
    ⌊valueOf m⌋ = ⌊(s : ℚ) / 10 ^ k⌋ := by
  have floor : ⌊(s : ℚ) / 10 ^ k⌋ = (s / 10 ^ k : Nat) := by
    have whole := Rat.floor_natCast_div_natCast s (10 ^ k)
    rwa [Nat.cast_pow, Nat.cast_ofNat] at whole
  obtain ⟨n, finite, value⟩ := exists_valueOf_eq_natCast ((Nat.div_le_self s (10 ^ k)).trans small)
  have below : valueOf n ≤ s / 10 ^ k := by
    rw [value]
    exact_mod_cast Nat.cast_div_le (α := ℚ) (m := s) (n := 10 ^ k)
  rw [floor, Int.floor_eq_iff, Int.cast_natCast]
  constructor
  · rw [← value]
    exact valueOf_strictMono.monotone ((isNearest_valueOf finite).mono h below)
  · exact lt_succ_of_isNearest_quotient small positive few h

theorem scaled?_of_exact {e : ℤ} (small : s ≤ 2 ^ 53) (lower : -22 ≤ e) (upper : e ≤ 22)
    (product : (s : ℚ) * 10 ^ e ≤ 2 ^ 53) :
    ∃ a, scaled? s e = some a ∧ ⌊a.absRat⌋ = ⌊(s : ℚ) * 10 ^ e⌋ := by
  cases e with
  | ofNat n =>
    have few : n ≤ 22 := Int.ofNat_le.mp upper
    have nearest := isNearest_mul (ofInt s) (powerOfTen n)
    rw [Int.ofNat_eq_natCast, zpow_natCast] at product ⊢
    rw [absRat_ofInt_natCast small, absRat_powerOfTen few] at nearest
    have whole : s * 10 ^ n ≤ 2 ^ 53 := by exact_mod_cast product
    obtain ⟨k, finite, value⟩ := exists_valueOf_eq_natCast whole
    push_cast at value
    have exact_ := nearest.valueOf_eq ⟨k, finite, value⟩
    have finite : ((ofInt s).mul (powerOfTen n)).magnitude < infinity :=
      lt_infinity_of_le_zpow (e := 53) (by decide) (by decide)
        (by rw [exact_]; exact_mod_cast product)
    refine ⟨_, ?_, by rw [absRat_eq_valueOf, exact_]⟩
    rw [scaled?_ofNat, multiplyUp?, if_pos (few.trans (by decide))]
    dsimp only
    rw [if_neg]
    exact fun infinite => finite.ne (beq_iff_eq.mp infinite)
  | negSucc n =>
    have few : n + 1 ≤ 22 := by
      rw [Int.negSucc_eq] at lower
      omega
    have once : n / maxPower = 0 := Nat.div_eq_of_lt (by rw [maxPower]; omega)
    have last : n % maxPower = n := Nat.mod_eq_of_lt (by rw [maxPower]; omega)
    have nearest := isNearest_div_powerOfTen (ofInt s) (n + 1)
    rw [absRat_ofInt_natCast small, absRat_powerOfTen few] at nearest
    refine ⟨_, scaled?_negSucc s n, ?_⟩
    rw [once, last, zpow_negSucc, ← div_eq_mul_inv]
    exact floor_of_isNearest_quotient small (Nat.succ_pos n) (few.trans (by decide)) nearest

end Json

end LatencyLog
