import LatencyLog.Proofs.Binary64.RelativeError
import LatencyLog.Proofs.Json.Numeral

/-! # What a numeral denotes

* `Json.Numeral.toRat`: the rational number that a numeral denotes, whatever its digits and its
  exponent are.
* `Json.absorb_of_lt`: digits below the bound of the significand are all taken.
* `Json.absorb_bounds`: where digits are left over, the significand is that of their number, cut
  off, and has sixty bits at least.
* `Json.Numeral.close_significand`: a significand at its scale is close to the digits at their
  places.
-/

namespace LatencyLog

set_option autoImplicit false

open Text

namespace Json

/-! ## Digits taken and left over -/

theorem withDigits_bounds (value : Nat) (digits : List (Fin 10)) :
    value * 10 ^ digits.length ≤ withDigits value digits ∧
      withDigits value digits < (value + 1) * 10 ^ digits.length := by
  induction digits generalizing value with
  | nil => exact ⟨by simp [withDigits], by simp [withDigits]⟩
  | cons d digits ih =>
    obtain ⟨lower, upper⟩ := ih (value * 10 + d.val)
    rw [withDigits_cons, List.length_cons, pow_succ']
    constructor
    · calc value * (10 * 10 ^ digits.length)
          = value * 10 * 10 ^ digits.length := (Nat.mul_assoc _ _ _).symm
        _ ≤ (value * 10 + d.val) * 10 ^ digits.length :=
          Nat.mul_le_mul_right _ (Nat.le_add_right _ _)
        _ ≤ withDigits (value * 10 + d.val) digits := lower
    · calc withDigits (value * 10 + d.val) digits
          < (value * 10 + d.val + 1) * 10 ^ digits.length := upper
        _ ≤ (value + 1) * 10 * 10 ^ digits.length :=
          Nat.mul_le_mul_right _ (by omega)
        _ = (value + 1) * (10 * 10 ^ digits.length) := Nat.mul_assoc _ _ _

theorem withDigit?_of_lt {significand : Nat} {d : Fin 10} (h : significand * 10 + d.val < 2 ^ 64) :
    Literal.withDigit? significand d = some (significand * 10 + d.val) := if_pos h

theorem withDigit?_of_ge {significand : Nat} {d : Fin 10}
    (h : ¬significand * 10 + d.val < 2 ^ 64) : Literal.withDigit? significand d = none := if_neg h

theorem absorb_of_lt {significand : Nat} {digits : List (Fin 10)}
    (small : withDigits significand digits < 2 ^ 64) :
    absorb significand digits = (withDigits significand digits, []) := by
  induction digits generalizing significand with
  | nil => rfl
  | cons d digits ih =>
    rw [withDigits_cons] at small ⊢
    have grown := le_withDigits (significand * 10 + d.val) digits
    rw [absorb_of_some (withDigit?_of_lt (grown.trans_lt small)), ih small]

/-- The significand is the number of the digits with as many of them cut off as are left over. Where
any are, it has no room for one more. -/
theorem absorb_bounds (significand : Nat) (digits : List (Fin 10)) :
    (absorb significand digits).1 * 10 ^ (absorb significand digits).2.length ≤
        withDigits significand digits ∧
      withDigits significand digits <
        ((absorb significand digits).1 + 1) * 10 ^ (absorb significand digits).2.length ∧
      ((absorb significand digits).2 ≠ [] → 2 ^ 60 ≤ (absorb significand digits).1) := by
  induction digits generalizing significand with
  | nil => simp [absorb, withDigits]
  | cons d digits ih =>
    by_cases fits : significand * 10 + d.val < 2 ^ 64
    · rw [absorb_of_some (withDigit?_of_lt fits), withDigits_cons]
      exact ih (significand * 10 + d.val)
    · rw [absorb_of_none (withDigit?_of_ge fits)]
      obtain ⟨lower, upper⟩ := withDigits_bounds significand (d :: digits)
      exact ⟨lower, upper, fun _ => by dsimp only; omega⟩

/-! ## Values -/

def Power.exponent (p : Power) : ℤ := if p.isNegative then -(p.value : ℤ) else p.value

namespace Numeral

/-- The digits before the exponent, read as one integer. -/
def digits (n : Numeral) : Nat := withDigits 0 (n.lead :: n.whole ++ n.fraction)

/-- The exponent as it is written, zero where there is none. -/
def exponent (n : Numeral) : ℤ :=
  match n.power with
  | none => 0
  | some p => p.exponent

/-- The power of ten at which the digits stand. -/
def netExponent (n : Numeral) : ℤ := n.exponent - n.fraction.length

def absRat (n : Numeral) : ℚ := n.digits * 10 ^ n.netExponent

/-- The rational number that a numeral denotes. -/
def toRat (n : Numeral) : ℚ := if n.negative then -n.absRat else n.absRat

theorem absRat_nonneg (n : Numeral) : 0 ≤ n.absRat :=
  mul_nonneg (Nat.cast_nonneg _) (Decimal.ten_zpow_pos _).le

theorem abs_toRat (n : Numeral) : |n.toRat| = n.absRat := by
  rw [toRat]
  split
  · rw [abs_neg, abs_of_nonneg n.absRat_nonneg]
  · rw [abs_of_nonneg n.absRat_nonneg]

theorem digits_eq (n : Numeral) : n.digits = withDigits (withDigits n.lead n.whole) n.fraction := by
  rw [digits, List.cons_append, withDigits_cons, withDigits_append, Nat.zero_mul, Nat.zero_add]

/-! ## Digits that all fit -/

theorem wholeSignificand_of_lt {n : Numeral} (small : n.digits < 2 ^ 64) :
    n.wholeSignificand = withDigits n.lead n.whole ∧ n.dropped = 0 := by
  rw [digits_eq] at small
  rw [wholeSignificand, dropped, absorb_of_lt ((le_withDigits _ _).trans_lt small)]
  exact ⟨rfl, rfl⟩

/-- Digits that build a number below `2 ^ 64` are all in the significand. -/
theorem significand_of_lt {n : Numeral} (small : n.digits < 2 ^ 64) :
    n.significand = n.digits ∧ n.scale = -(n.fraction.length : ℤ) := by
  obtain ⟨whole, none⟩ := wholeSignificand_of_lt small
  rw [digits_eq] at small ⊢
  rw [significand, scale, places, whole, none, absorb_of_lt small]
  refine ⟨rfl, ?_⟩
  rw [List.length_nil, Nat.sub_zero, Nat.cast_zero, zero_sub]

/-! ## Digits cut off -/

/-- The factor by which leaving digits over may change a number. -/
def truncationFactor : ℚ := 1 + 1 / 2 ^ 60

theorem one_le_truncationFactor : 1 ≤ truncationFactor := by
  rw [truncationFactor]
  norm_num

theorem close_of_between {a b unit : ℚ} {t : Nat} (wide : 2 ^ 60 ≤ t) (positive : 0 < unit)
    (ha : t * unit ≤ a) (ha' : a ≤ (t + 1) * unit) (hb : t * unit ≤ b) (hb' : b ≤ (t + 1) * unit) :
    Close truncationFactor a b := by
  have room : unit ≤ 1 / 2 ^ 60 * (t * unit) := by
    rw [← mul_assoc]
    refine le_mul_of_one_le_left positive.le ?_
    rw [one_div_mul_eq_div, one_le_div (by positivity)]
    exact_mod_cast wide
  constructor <;> rw [truncationFactor] <;> linarith

variable (n : Numeral)

theorem length_fraction :
    n.fraction.length = n.places + (absorb n.wholeSignificand n.fraction).2.length := by
  have fewer := length_absorb_le n.wholeSignificand n.fraction
  rw [places]
  omega

theorem significand_div : (n.significand : ℚ) * 10 ^ n.scale =
    n.significand * 10 ^ n.dropped / 10 ^ n.places := by
  rw [scale, zpow_sub₀ (by norm_num), zpow_natCast, zpow_natCast, mul_div_assoc]

theorem digits_div : (n.digits : ℚ) * 10 ^ (-(n.fraction.length : ℤ)) =
    n.digits / 10 ^ n.fraction.length := by
  rw [zpow_neg, zpow_natCast, div_eq_mul_inv]

variable {n}

/-- Digits before the point are left over: all that follows lies within the last place taken. -/
theorem close_significand_of_dropped (some : (absorb n.lead n.whole).2 ≠ []) :
    Close truncationFactor (n.significand * 10 ^ n.scale)
      (n.digits * 10 ^ (-(n.fraction.length : ℤ))) := by
  obtain ⟨wholeLower, wholeUpper, wide⟩ := absorb_bounds n.lead n.whole
  obtain ⟨lower, upper, -⟩ := absorb_bounds n.wholeSignificand n.fraction
  obtain ⟨taken, taken'⟩ := withDigits_bounds n.wholeSignificand n.fraction
  obtain ⟨all, all'⟩ := withDigits_bounds (withDigits n.lead n.whole) n.fraction
  rw [← digits_eq] at all all'
  change n.wholeSignificand * 10 ^ n.dropped ≤ withDigits n.lead n.whole at wholeLower
  change withDigits n.lead n.whole < (n.wholeSignificand + 1) * 10 ^ n.dropped at wholeUpper
  have places : 10 ^ n.fraction.length =
      10 ^ n.places * 10 ^ (absorb n.wholeSignificand n.fraction).2.length := by
    rw [← pow_add, ← n.length_fraction]
  have leftPos := Nat.pow_pos (n := (absorb n.wholeSignificand n.fraction).2.length)
    (by decide : 0 < 10)
  have taken : n.wholeSignificand * 10 ^ n.places < n.significand + 1 := by
    refine Nat.lt_of_mul_lt_mul_right (a := 10 ^ (absorb n.wholeSignificand n.fraction).2.length) ?_
    rw [Nat.mul_assoc, ← places]
    exact taken.trans_lt upper
  have taken' : n.significand < (n.wholeSignificand + 1) * 10 ^ n.places := by
    refine Nat.lt_of_mul_lt_mul_right (a := 10 ^ (absorb n.wholeSignificand n.fraction).2.length) ?_
    rw [Nat.mul_assoc, ← places]
    exact lower.trans_lt taken'
  have unit : (0 : ℚ) < 10 ^ n.dropped := by positivity
  rw [significand_div, digits_div]
  refine close_of_between (wide some) unit ?_ ?_ ?_ ?_
  · rw [le_div_iff₀ (by positivity), mul_right_comm]
    refine mul_le_mul_of_nonneg_right ?_ unit.le
    exact_mod_cast Nat.le_of_lt_succ taken
  · rw [div_le_iff₀ (by positivity), mul_right_comm]
    refine mul_le_mul_of_nonneg_right ?_ unit.le
    exact_mod_cast taken'.le
  · rw [le_div_iff₀ (by positivity)]
    exact_mod_cast (Nat.mul_le_mul_right _ wholeLower).trans all
  · rw [div_le_iff₀ (by positivity)]
    exact_mod_cast all'.le.trans (Nat.mul_le_mul_right _ wholeUpper)

/-- All digits before the point are taken. -/
theorem close_significand_of_whole (none : (absorb n.lead n.whole).2 = []) :
    Close truncationFactor (n.significand * 10 ^ n.scale)
      (n.digits * 10 ^ (-(n.fraction.length : ℤ))) := by
  have length := n.length_fraction
  obtain ⟨wholeLower, wholeUpper, -⟩ := absorb_bounds n.lead n.whole
  obtain ⟨lower, upper, wide⟩ := absorb_bounds n.wholeSignificand n.fraction
  have dropped : n.dropped = 0 := by rw [Numeral.dropped, none, List.length_nil]
  have whole : withDigits n.lead n.whole = n.wholeSignificand := by
    rw [none, List.length_nil, pow_zero, Nat.mul_one] at wholeLower wholeUpper
    exact Nat.le_antisymm (Nat.le_of_lt_succ wholeUpper) wholeLower
  rw [← whole, ← digits_eq, whole] at lower upper
  rw [significand_div, digits_div, dropped, pow_zero, mul_one]
  by_cases left : (absorb n.wholeSignificand n.fraction).2 = []
  · rw [left, List.length_nil, pow_zero, Nat.mul_one] at lower upper
    rw [left, List.length_nil, Nat.add_zero] at length
    have same : n.digits = n.significand := Nat.le_antisymm (Nat.le_of_lt_succ upper) lower
    rw [same, length]
    exact Close.refl one_le_truncationFactor (by positivity)
  · have places : (10 : ℚ) ^ n.fraction.length =
        10 ^ n.places * 10 ^ (absorb n.wholeSignificand n.fraction).2.length := by
      rw [← pow_add, ← length]
    have unit : (0 : ℚ) < (10 ^ n.places)⁻¹ := by positivity
    refine close_of_between (wide left) unit ?_ ?_ ?_ ?_
    · rw [← div_eq_mul_inv]
      rfl
    · rw [div_eq_mul_inv]
      exact mul_le_mul_of_nonneg_right (le_add_of_nonneg_right zero_le_one) unit.le
    · rw [← div_eq_mul_inv, div_le_div_iff₀ (by positivity) (by positivity), places,
        mul_left_comm, mul_comm (n.digits : ℚ)]
      exact mul_le_mul_of_nonneg_left (by exact_mod_cast lower) (by positivity)
    · rw [← div_eq_mul_inv, div_le_div_iff₀ (by positivity) (by positivity), places,
        mul_left_comm, mul_comm (n.digits : ℚ)]
      exact mul_le_mul_of_nonneg_left (by exact_mod_cast upper.le) (by positivity)

/-- **The significand at its scale is close to the number that all the digits build**, wherever some
of them are left over. -/
theorem close_significand (n : Numeral) :
    Close truncationFactor (n.significand * 10 ^ n.scale)
      (n.digits * 10 ^ (-(n.fraction.length : ℤ))) := by
  by_cases none : (absorb n.lead n.whole).2 = []
  · exact close_significand_of_whole none
  · exact close_significand_of_dropped none

theorem close_absRat (n : Numeral) :
    Close truncationFactor (n.significand * 10 ^ (n.scale + n.exponent)) n.absRat := by
  have positive := Decimal.ten_zpow_pos n.exponent
  have close := n.close_significand.mul (Close.refl le_rfl positive.le)
    (mul_nonneg (Nat.cast_nonneg _) (Decimal.ten_zpow_pos _).le)
    (mul_nonneg (Nat.cast_nonneg _) (Decimal.ten_zpow_pos _).le) positive.le positive.le
  rw [mul_one, mul_assoc, mul_assoc, ← zpow_add₀ (by norm_num), ← zpow_add₀ (by norm_num),
    neg_add_eq_sub] at close
  exact close

end Numeral

end Json

end LatencyLog
