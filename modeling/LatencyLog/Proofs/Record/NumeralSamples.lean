import LatencyLog.Proofs.Json.NumeralValue
import LatencyLog.Proofs.Json.Scaling
import LatencyLog.Record
import Mathlib.Algebra.Order.Group.MinMax

/-! # Samples of numerals

* `clampRat`: a rational number kept within 128 bits.
* `Json.Numeral.exists_sample_of_integer`: an integer of 64 bits is its own sample.
* `Json.Numeral.exists_sample_of_exact`: a numeral of few digits and a small exponent has the sample
  that its value is cut off to.
* `Json.Numeral.exists_near_sample`: the sample of a numeral is near to its value.
-/

namespace LatencyLog

set_option autoImplicit false

open Binary64

/-! ## Bounds -/

/-- The rational number of 128 bits nearest to `q`. -/
def clampRat (q : ℚ) : ℚ := max (-2 ^ 127) (min q (2 ^ 127 - 1))

theorem cast_toInt_clamp (i : ℤ) : ((Int128.clamp i).toInt : ℚ) = clampRat i := by
  rw [Int128.toInt_clamp, clampRat]
  push_cast
  norm_num

/-- Keeping two numbers within bounds leads them no further apart. -/
theorem abs_clampRat_sub_le (p q : ℚ) : |clampRat p - clampRat q| ≤ |p - q| := by
  calc |clampRat p - clampRat q|
      ≤ |min p (2 ^ 127 - 1) - min q (2 ^ 127 - 1)| := by
        rw [clampRat, clampRat, max_comm, max_comm (-2 ^ 127)]
        exact abs_max_sub_max_le_abs _ _ _
    _ ≤ |p - q| := by
        have bound := abs_min_sub_min_le_max p (2 ^ 127 - 1) q (2 ^ 127 - 1)
        rwa [sub_self, abs_zero, max_eq_left (abs_nonneg _)] at bound

/-! ## Signs -/

/-- The integer with a sign. -/
def withSign (negative : Bool) (i : ℤ) : ℤ := if negative then -i else i

theorem toInt_clamp_withSign (negative : Bool) {i : ℤ} (nonneg : 0 ≤ i) (small : i ≤ 2 ^ 64) :
    (Int128.clamp (withSign negative i)).toInt = withSign negative i := by
  rw [withSign]
  split
  · exact Int128.toInt_clamp_of_mem (by omega) (by omega)
  · exact Int128.toInt_clamp_of_mem (by omega) (by omega)

theorem towardZero_signed (negative : Bool) {q : ℚ} (nonneg : 0 ≤ q) :
    towardZero (if negative then -q else q) = withSign negative ⌊q⌋ := by
  cases negative with
  | false => exact towardZero_of_nonneg nonneg
  | true => exact (towardZero_neg q).trans (congrArg _ (towardZero_of_nonneg nonneg))

theorem abs_withSign_sub (negative : Bool) (i : ℤ) (q : ℚ) :
    |(withSign negative i : ℚ) - (if negative then -q else q)| = |(i : ℚ) - q| := by
  cases negative with
  | false => rfl
  | true =>
    have flipped : ((withSign true i : ℤ) : ℚ) - -q = -(i - q) := by
      rw [withSign, if_pos rfl]
      push_cast
      ring
    exact (congrArg _ flipped).trans (abs_neg _)

theorem Binary64.truncate_signed {a : Binary64} (positive : a.negative = false) (negative : Bool) :
    (if negative then a.neg else a).truncate = withSign negative ⌊a.absRat⌋ := by
  cases negative with
  | false =>
    rw [if_neg Bool.false_ne_true, truncate_eq_towardZero, toRat, positive]
    exact towardZero_signed false a.absRat_nonneg
  | true =>
    rw [if_pos rfl, truncate_eq_towardZero, toRat, neg, positive]
    exact towardZero_signed true a.absRat_nonneg

namespace Json.Numeral

variable {n : Numeral}

/-! ## Digits without a point and an exponent -/

theorem absRat_of_integer (noPoint : n.fraction = []) (noPower : n.power = none) :
    n.absRat = n.digits := by
  rw [absRat, netExponent, exponent, noPower, noPoint, List.length_nil]
  simp

theorem significand_of_dropped (noPoint : n.fraction = []) (none : n.dropped = 0) :
    n.significand = n.digits := by
  obtain ⟨lower, upper, -⟩ := absorb_bounds n.lead n.whole
  change (absorb n.lead n.whole).2.length = 0 at none
  rw [none, pow_zero, Nat.mul_one] at lower upper
  rw [significand, digits_eq, noPoint]
  exact Nat.le_antisymm lower (Nat.le_of_lt_succ upper)

/-- The sample of an integer literal of 64 bits is the integer, the negative zero among them. -/
theorem exists_sample_of_integer (noPoint : n.fraction = []) (noPower : n.power = none)
    (upper : n.digits < 2 ^ 64) (lower : n.negative = true → n.digits ≤ 2 ^ 63) :
    ∃ x m, n.number? = some x ∧ latency? (.number x) = some m ∧
      m.toInt = withSign n.negative n.digits := by
  have dropped := (wholeSignificand_of_lt upper).2
  have same := (significand_of_lt upper).1
  have number : n.number? = some n.integer := by
    rw [number?, noPower]
    exact if_pos ⟨noPoint, dropped⟩
  refine ⟨n.integer, Int128.clamp (withSign n.negative n.digits), number, ?_, ?_⟩
  · rw [integer, same]
    cases sign : n.negative with
    | false => rfl
    | true =>
      rw [if_pos rfl]
      split
      · rfl
      · next outside =>
        have zero : n.digits = 0 := by
          have bound := lower sign
          omega
        rw [zero]
        decide +kernel
  · exact toInt_clamp_withSign _ (Int.natCast_nonneg _) (by omega)

/-! ## Numbers by their exponents -/

theorem exponent_of_none (none : n.power = none) : n.exponent = 0 := by rw [exponent, none]

theorem exponent_of_some {p : Power} (some : n.power = some p) :
    n.exponent = if p.isNegative then -(p.value : ℤ) else p.value := by
  rw [exponent, some]
  rfl

theorem number?_of_none (noPower : n.power = none)
    (noInteger : ¬(n.fraction = [] ∧ n.dropped = 0)) : n.number? = n.real? n.scale := by
  rw [number?, noPower]
  exact if_neg noInteger

theorem number?_of_power {p : Power} (some : n.power = some p)
    (range : p.value ≤ Literal.maxExponent) :
    n.number? = n.real? (Literal.clampExponent (n.scale + n.exponent)) := by
  have sum : n.scale + n.exponent =
      if p.isNegative then n.scale - p.value else n.scale + p.value := by
    rw [exponent_of_some some]
    split <;> omega
  rw [number?, some, sum]
  exact if_pos range

theorem number?_of_beyond {p : Power} (some : n.power = some p)
    (beyond : ¬p.value ≤ Literal.maxExponent) :
    n.number? = if p.isNegative = false ∧ n.significand ≠ 0 then none
      else .some (.real (Binary64.zero n.negative)) := by
  rw [number?, some]
  exact if_neg beyond

/-- The written exponent is below `2 ^ 31`, or nothing but zeros stands before it. -/
def ExponentIsRead (n : Numeral) : Prop := n.exponent ≤ 2 ^ 31 - 1 ∨ n.digits = 0

/-- In a numeral that denotes a number, only zeros stand before an exponent that is too large to be
read as it is written. -/
theorem exponentIsRead_of_number? (inRange : n.number?.isSome) (fits : n.digits < 2 ^ 64) :
    n.ExponentIsRead := by
  have greatest : Literal.maxExponent = 2 ^ 31 - 1 := rfl
  cases written : n.power with
  | none =>
    rw [ExponentIsRead, exponent_of_none written]
    exact Or.inl (by omega)
  | some p =>
    rw [ExponentIsRead, exponent_of_some written]
    by_cases range : p.value ≤ Literal.maxExponent
    · split <;> omega
    · rw [number?_of_beyond written range] at inRange
      cases sign : p.isNegative with
      | true =>
        rw [if_pos rfl]
        omega
      | false =>
        by_contra neither
        rw [← (significand_of_lt fits).1] at neither
        rw [if_pos ⟨sign, fun zero => neither (Or.inr zero)⟩] at inRange
        cases inRange

theorem latency?_zero (negative : Bool) :
    latency? (.number (.real (Binary64.zero negative))) = some (Int128.clamp 0) := by
  have nothing : (Binary64.zero negative).absRat = 0 := valueOf_zero
  have whole : (Binary64.zero negative).truncate = 0 := by
    rw [truncate_eq_towardZero, Binary64.toRat, nothing, towardZero_signed _ le_rfl,
      Int.floor_zero, withSign, neg_zero, ite_self]
  rw [latency?, whole]

/-! ## Numbers that are read exactly -/

/-- The sample of a number that is neither an integer nor out of range, by the binary64 number that
it is scaled to. -/
theorem latency?_of_scaled? {e : ℤ} {a : Binary64} (scaled : scaled? n.significand e = some a) :
    latency? (.number (.real (if n.negative then a.neg else a))) =
      some (Int128.clamp (withSign n.negative ⌊a.absRat⌋)) := by
  rw [← truncate_signed (negative_of_scaled? scaled)]
  rfl

theorem number?_of_scaled? {e : ℤ} {a : Binary64} (number : n.number? = n.real? e)
    (scaled : scaled? n.significand e = some a) :
    n.number? = some (.real (if n.negative then a.neg else a)) := by
  rw [number, real?, scaled, Option.map_some]

theorem exists_scaled_of_real? {x : Number} {e : ℤ} (number : n.number? = n.real? e)
    (denoted : n.number? = some x) :
    ∃ a, scaled? n.significand e = some a ∧
      latency? (.number x) = some (Int128.clamp (withSign n.negative ⌊a.absRat⌋)) := by
  obtain ⟨a, scaled, rfl⟩ := Option.map_eq_some_iff.mp (number.symm.trans denoted)
  exact ⟨a, scaled, latency?_of_scaled? scaled⟩

theorem exists_sample_of_scaled {e : ℤ} (number : n.number? = n.real? e) (net : e = n.netExponent)
    (small : n.digits ≤ 2 ^ 53) (lower : -22 ≤ e) (upper : e ≤ 22) (product : n.absRat ≤ 2 ^ 53) :
    ∃ x m, n.number? = some x ∧ latency? (.number x) = some m ∧ m.toInt = towardZero n.toRat := by
  have same := (significand_of_lt (small.trans_lt (by decide))).1
  obtain ⟨a, scaled, floor⟩ : ∃ a, scaled? n.digits e = some a ∧ ⌊a.absRat⌋ = ⌊n.absRat⌋ := by
    rw [absRat, ← net] at product ⊢
    exact scaled?_of_exact small lower upper product
  rw [← same] at scaled
  refine ⟨_, _, number?_of_scaled? number scaled, latency?_of_scaled? scaled, ?_⟩
  have bound : ⌊n.absRat⌋ ≤ 2 ^ 53 := Int.floor_le_iff.mpr (by push_cast; linarith)
  rw [toRat, towardZero_signed _ n.absRat_nonneg, floor]
  exact toInt_clamp_withSign _ (Int.floor_nonneg.mpr n.absRat_nonneg) (bound.trans (by decide))

/-- The digits, the power of ten that they stand at and the value are small. -/
structure IsExact (n : Numeral) : Prop where
  digits_le : n.digits ≤ 2 ^ 53
  exponent_le : |n.netExponent| ≤ 22
  value_le : n.absRat ≤ 2 ^ 53

/-- A numeral of small digits, at a small power of ten and of a small value has the sample that this
value is cut off to. -/
theorem exists_sample_of_exact (h : n.IsExact) (read : n.ExponentIsRead) :
    ∃ x m, n.number? = some x ∧ latency? (.number x) = some m ∧ m.toInt = towardZero n.toRat := by
  obtain ⟨small, bound, product⟩ := h
  obtain ⟨lower, upper⟩ := abs_le.mp bound
  have fits : n.digits < 2 ^ 64 := small.trans_lt (by decide)
  obtain ⟨same, scale⟩ := significand_of_lt fits
  have dropped := (wholeSignificand_of_lt fits).2
  cases written : n.power with
  | none =>
    by_cases noPoint : n.fraction = []
    · obtain ⟨x, m, denoted, found, value⟩ := exists_sample_of_integer noPoint written fits
        fun _ => small.trans (by decide)
      refine ⟨x, m, denoted, found, ?_⟩
      rw [value, toRat, towardZero_signed _ n.absRat_nonneg, absRat_of_integer noPoint written,
        Int.floor_natCast]
    · have net : n.scale = n.netExponent := by
        rw [scale, netExponent, exponent_of_none written, zero_sub]
      exact exists_sample_of_scaled (number?_of_none written fun both => noPoint both.1) net small
        (net ▸ lower) (net ▸ upper) product
  | some p =>
    have exponent := exponent_of_some written
    have greatest : Literal.maxExponent = 2 ^ 31 - 1 := rfl
    by_cases range : p.value ≤ Literal.maxExponent
    · have net : Literal.clampExponent (n.scale + n.exponent) = n.netExponent := by
        rw [netExponent] at lower upper ⊢
        rw [Literal.clampExponent, scale]
        omega
      exact exists_sample_of_scaled (number?_of_power written range) net small (net ▸ lower)
        (net ▸ upper) product
    · have zero : n.digits = 0 := by
        refine read.resolve_left fun le => ?_
        rw [netExponent] at lower
        split at exponent <;> omega
      refine ⟨.real (Binary64.zero n.negative), Int128.clamp 0, ?_, latency?_zero _, ?_⟩
      · rw [number?_of_beyond written range]
        exact if_neg fun large => large.2 (same.trans zero)
      · rw [toRat, towardZero_signed _ n.absRat_nonneg, absRat, zero, Nat.cast_zero, zero_mul,
          Int.floor_zero, withSign, neg_zero, ite_self]
        rfl

/-! ## Numbers that are read nearly -/

/-- Cutting off a number close to another one, or cutting off a small one near a small one. -/
theorem abs_floor_sub_lt {a q : ℚ} (ha : 0 ≤ a) (hq : 0 ≤ q)
    (h : Close (1 + 1 / 2 ^ 51) a q ∨ a < 1 ∧ q < 1) :
    |(⌊a⌋ : ℚ) - q| < 1 + q / 2 ^ 50 := by
  have lower := Int.lt_floor_add_one a
  have upper := Int.floor_le a
  rw [abs_lt]
  rcases h with close | ⟨smallA, smallQ⟩
  · have le := close.le
    have ge := close.ge
    constructor <;> linarith
  · have zero : ⌊a⌋ = 0 := Int.floor_eq_zero_iff.mpr ⟨ha, smallA⟩
    rw [zero, Int.cast_zero]
    constructor <;> linarith

theorem factors_le : Json.scalingFactor * truncationFactor ≤ 1 + 1 / 2 ^ 51 := by
  rw [Json.scalingFactor, roundingFactor, truncationFactor]
  norm_num

/-- The sample of a scaled number. -/
theorem abs_floor_scaled_sub_lt {a : Binary64}
    (h : CloseOrSmall scalingFactor a.absRat (n.significand * 10 ^ (n.scale + n.exponent))) :
    |(⌊a.absRat⌋ : ℚ) - n.absRat| < 1 + n.absRat / 2 ^ 50 := by
  have positive : 0 ≤ scalingFactor := zero_le_one.trans one_le_scalingFactor
  have positive' : 0 ≤ truncationFactor := zero_le_one.trans one_le_truncationFactor
  refine abs_floor_sub_lt a.absRat_nonneg n.absRat_nonneg ?_
  rcases h with close | ⟨small, small'⟩
  · exact Or.inl ((close.trans n.close_absRat positive positive').mono factors_le
      a.absRat_nonneg n.absRat_nonneg)
  · refine Or.inr ⟨small.trans (by norm_num), ?_⟩
    calc n.absRat
        ≤ truncationFactor * (n.significand * 10 ^ (n.scale + n.exponent)) := n.close_absRat.ge
      _ ≤ truncationFactor * (1 / 2) := mul_le_mul_of_nonneg_left small'.le positive'
      _ < 1 := by rw [truncationFactor]; norm_num

/-- A numeral with an exponent so far below zero that it is read as zero is small, unless it has as
many digits before the point. -/
theorem absRat_lt_one {p : Power} (some : n.power = some p) (negative : p.isNegative = true)
    (short : n.whole.length + 1 < p.value) : n.absRat < 1 := by
  have digits := (withDigits_bounds 0 (n.lead :: n.whole ++ n.fraction)).2
  rw [Nat.zero_add, Nat.one_mul, List.length_append, List.length_cons] at digits
  have exponent := exponent_of_some some
  rw [negative, if_pos rfl] at exponent
  have power : n.netExponent ≤ -((n.whole.length + 1 + n.fraction.length : Nat) : ℤ) := by
    rw [netExponent, exponent]
    push_cast
    omega
  generalize n.whole.length + 1 + n.fraction.length = places at digits power
  calc n.absRat
      ≤ n.digits * 10 ^ (-(places : ℤ)) :=
        mul_le_mul_of_nonneg_left (zpow_le_zpow_right₀ (by norm_num) power) (Nat.cast_nonneg _)
    _ < 10 ^ places * 10 ^ (-(places : ℤ)) :=
        mul_lt_mul_of_pos_right (by exact_mod_cast digits) (Decimal.ten_zpow_pos _)
    _ = 1 := by
        rw [zpow_neg, zpow_natCast]
        exact mul_inv_cancel₀ (by positivity)

theorem absRat_eq_zero (zero : n.significand = 0) : n.absRat = 0 := by
  have close := n.close_absRat.ge
  rw [zero, Nat.cast_zero, zero_mul, mul_zero] at close
  exact le_antisymm close n.absRat_nonneg

/-- The integer `i` is near to the absolute value of a numeral. -/
def IsNear (n : Numeral) (i : ℤ) : Prop := |(i : ℚ) - n.absRat| < 1 + n.absRat / 2 ^ 50

theorem isNear_of_eq {i : ℤ} (same : n.absRat = i) : n.IsNear i := by
  have nonneg := n.absRat_nonneg
  rw [IsNear, same, sub_self, abs_zero, ← same]
  positivity

theorem isNear_zero (small : n.absRat < 1) : n.IsNear 0 := by
  have nonneg := n.absRat_nonneg
  rw [IsNear, Int.cast_zero, zero_sub, abs_neg, abs_of_nonneg nonneg]
  exact lt_add_of_lt_of_nonneg small (by positivity)

theorem exists_near_of_real? {x : Number} {e : ℤ} (number : n.number? = n.real? e)
    (h : n.number? = some x)
    (close : ∀ a, scaled? n.significand e = some a →
      CloseOrSmall scalingFactor a.absRat (n.significand * 10 ^ (n.scale + n.exponent))) :
    ∃ i, latency? (.number x) = some (Int128.clamp (withSign n.negative i)) ∧ n.IsNear i := by
  obtain ⟨a, scaled, found⟩ := exists_scaled_of_real? number h
  exact ⟨_, found, abs_floor_scaled_sub_lt (close a scaled)⟩

/-- The sample of a negative integer literal that is no integer of 64 bits. -/
theorem latency?_integer_of_outside (sign : n.negative = true)
    (outside : ¬(1 ≤ n.significand ∧ n.significand ≤ 2 ^ 63)) :
    latency? (.number n.integer) =
      some (Int128.clamp (withSign n.negative ⌊(ofInt n.significand).absRat⌋)) := by
  rw [← truncate_signed (negative_ofInt_natCast n.significand), integer, if_pos sign,
    if_neg outside, if_pos sign]
  rfl

theorem exists_near_of_integer (noPower : n.power = none) (noPoint : n.fraction = [])
    (dropped : n.dropped = 0) :
    ∃ i, latency? (.number n.integer) = some (Int128.clamp (withSign n.negative i)) ∧
      n.IsNear i := by
  have value := absRat_of_integer noPoint noPower
  have same := significand_of_dropped noPoint dropped
  have exact_ : n.IsNear (n.significand : ℤ) := isNear_of_eq (by rw [value, same]; rfl)
  by_cases outside : n.negative = true ∧ ¬(1 ≤ n.significand ∧ n.significand ≤ 2 ^ 63)
  · refine ⟨_, latency?_integer_of_outside outside.1 outside.2, ?_⟩
    refine abs_floor_sub_lt (Binary64.absRat_nonneg _) n.absRat_nonneg (Or.inl ?_)
    rw [value, ← same]
    refine (close_ofInt_natCast n.significand_lt).mono ?_ (Binary64.absRat_nonneg _)
      (Nat.cast_nonneg _)
    rw [roundingFactor]
    norm_num
  · refine ⟨_, ?_, exact_⟩
    rw [integer]
    cases sign : n.negative with
    | false => rfl
    | true =>
      rw [if_pos rfl, if_pos (not_not.mp fun large => outside ⟨sign, large⟩)]
      rfl

/-- **The sample of a numeral in range is near to its value**, for digits and exponents of any
number, as long as fewer than `2 ^ 31` digits stand before the point. -/
theorem exists_near_sample {x : Number} (h : n.number? = some x)
    (short : n.whole.length + 1 < 2 ^ 31) :
    ∃ i, latency? (.number x) = some (Int128.clamp (withSign n.negative i)) ∧ n.IsNear i := by
  cases written : n.power with
  | none =>
    by_cases whole : n.fraction = [] ∧ n.dropped = 0
    · rw [number?, written] at h
      obtain rfl := Option.some.inj ((if_pos whole).symm.trans h)
      exact exists_near_of_integer written whole.1 whole.2
    · refine exists_near_of_real? (number?_of_none written whole) h fun a scaled => ?_
      rw [exponent_of_none written, add_zero]
      exact closeOrSmall_of_scaled? n.significand_lt scaled
  | some p =>
    by_cases range : p.value ≤ Literal.maxExponent
    · exact exists_near_of_real? (number?_of_power written range) h fun a scaled =>
        closeOrSmall_of_clampExponent n.significand_lt scaled
    · rw [number?_of_beyond written range] at h
      split at h
      · cases h
      · next inRange =>
        obtain rfl := Option.some.inj h
        have greatest : Literal.maxExponent = 2 ^ 31 - 1 := rfl
        have small : n.absRat < 1 := by
          cases sign : p.isNegative with
          | true => exact absRat_lt_one written sign (by omega)
          | false =>
            have zero : n.significand = 0 := by
              by_contra nonzero
              exact inRange ⟨sign, nonzero⟩
            rw [absRat_eq_zero zero]
            exact zero_lt_one
        refine ⟨0, ?_, isNear_zero small⟩
        rw [latency?_zero, withSign, neg_zero, ite_self]

end Json.Numeral

end LatencyLog
